import Incremental.Text.Quoted

/-!
# Values

The values over which formulas compute, how they are shown, and when two of them are equal.
Equality is coarser than identity for text that ignores case, and finer for the value that is
equal to nothing. Without the latter it is an equivalence, so such values can serve as arguments
of queries.
-/

namespace Incremental

inductive Value
  | null
  | int (n : Int)
  | str (s : String)
  /-- Text in which the case of ASCII letters does not count. -/
  | ci (s : String)
  /-- Equal to nothing, not even to itself. -/
  | nan
  | list (vs : List Value)
  deriving Repr, Inhabited

namespace Value

/-- Text without regard to the case of ASCII letters. -/
def foldCase (s : String) : List Char := s.toList.map Char.toLower

mutual

def same : Value → Value → Bool
  | null, null => true
  | int m, int n => m == n
  | str s, str t => s == t
  | ci s, ci t => foldCase s == foldCase t
  | list vs, list ws => sameAll vs ws
  | _, _ => false

def sameAll : List Value → List Value → Bool
  | [], [] => true
  | v :: vs, w :: ws => same v w && sameAll vs ws
  | _, _ => false

end

instance : BEq Value := ⟨same⟩

mutual

/-- Whether a value is equal to itself: nothing in it is equal to nothing. -/
def isReflexive : Value → Bool
  | nan => false
  | list vs => areReflexive vs
  | _ => true

def areReflexive : List Value → Bool
  | [] => true
  | v :: vs => isReflexive v && areReflexive vs

end

mutual

def written : Value → String
  | null => "null"
  | int n => toString n
  | str s => Text.quoted s
  | ci s => "ci" ++ Text.quoted s
  | nan => "nan"
  | list vs => "[" ++ String.intercalate ", " (allWritten vs) ++ "]"

def allWritten : List Value → List String
  | [] => []
  | v :: vs => written v :: allWritten vs

end

/-- A value as text: text itself without quotes, anything else as it is written. -/
def text : Value → String
  | str s => s
  | ci s => s
  | v => v.written

/-- One for truth and zero for falsehood. -/
def ofBool (b : Bool) : Value := int (if b then 1 else 0)

mutual

theorem same_refl : ∀ {v : Value}, v.isReflexive = true → v.same v = true
  | null, _ => by simp [same]
  | int _, _ => by simp [same]
  | str _, _ => by simp [same]
  | ci _, _ => by simp [same]
  | nan, h => by simp [isReflexive] at h
  | list vs, h => by
    simp only [same]
    exact sameAll_refl (by simpa [isReflexive] using h)

theorem sameAll_refl : ∀ {vs : List Value}, areReflexive vs = true → sameAll vs vs = true
  | [], _ => by simp [sameAll]
  | v :: vs, h => by
    simp only [areReflexive, Bool.and_eq_true] at h
    simp [sameAll, same_refl h.1, sameAll_refl h.2]

end

mutual

theorem same_symm : ∀ {v w : Value}, v.same w = true → w.same v = true
  | null, w, h => by cases w <;> simp_all [same]
  | int _, w, h => by cases w <;> simp_all [same]
  | str _, w, h => by cases w <;> simp_all [same]
  | ci _, w, h => by cases w <;> simp_all [same]
  | nan, w, h => by cases w <;> simp_all [same]
  | list vs, w, h => by
    cases w with
    | list ws => simpa [same] using sameAll_symm (by simpa [same] using h)
    | _ => simp [same] at h

theorem sameAll_symm : ∀ {vs ws : List Value}, sameAll vs ws = true → sameAll ws vs = true
  | [], ws, h => by cases ws <;> simp_all [sameAll]
  | v :: vs, ws, h => by
    cases ws with
    | nil => simp [sameAll] at h
    | cons w ws =>
      simp only [sameAll, Bool.and_eq_true] at h
      simp [sameAll, same_symm h.1, sameAll_symm h.2]

end

mutual

theorem same_trans : ∀ {u v w : Value}, u.same v = true → v.same w = true → u.same w = true
  | null, v, w, h, h' => by cases v <;> cases w <;> simp_all [same]
  | int _, v, w, h, h' => by cases v <;> cases w <;> simp_all [same]
  | str _, v, w, h, h' => by cases v <;> cases w <;> simp_all [same]
  | ci _, v, w, h, h' => by cases v <;> cases w <;> simp_all [same]
  | nan, v, w, h, h' => by simp [same] at h
  | list us, v, w, h, h' => by
    cases v with
    | list vs =>
      cases w with
      | list ws =>
        simpa [same] using sameAll_trans (by simpa [same] using h) (by simpa [same] using h')
      | _ => simp [same] at h'
    | _ => simp [same] at h

theorem sameAll_trans : ∀ {us vs ws : List Value},
    sameAll us vs = true → sameAll vs ws = true → sameAll us ws = true
  | [], vs, ws, h, h' => by cases vs <;> cases ws <;> simp_all [sameAll]
  | u :: us, vs, ws, h, h' => by
    cases vs with
    | nil => simp [sameAll] at h
    | cons v vs =>
      cases ws with
      | nil => simp [sameAll] at h'
      | cons w ws =>
        simp only [sameAll, Bool.and_eq_true] at h h'
        simp [sameAll, same_trans h.1 h'.1, sameAll_trans h.2 h'.2]

end

end Value

/-- A value that is equal to itself, as arguments of queries are. -/
structure Argument where
  value : Value
  isReflexive : value.isReflexive = true

namespace Argument

def ofValue? (value : Value) : Option Argument :=
  if h : value.isReflexive = true then some ⟨value, h⟩ else none

def unit : Argument := ⟨.null, rfl⟩

def int (n : Int) : Argument := ⟨.int n, rfl⟩

def text (s : String) : Argument := ⟨.str s, rfl⟩

instance : BEq Argument := ⟨fun a b ↦ a.value.same b.value⟩

instance : EquivBEq Argument where
  rfl {a} := Value.same_refl a.isReflexive
  symm {_ _} h := Value.same_symm h
  trans {_ _ _} h h' := Value.same_trans h h'

end Argument

end Incremental
