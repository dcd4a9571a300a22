import GraphGrammar.Transform
import Mathlib.Algebra.Field.Basic
import Mathlib.Algebra.Field.Rat
import Mathlib.Data.List.Infix
import Mathlib.Tactic.FieldSimp
import Mathlib.Tactic.Ring

/-!
# Transforms one after the other

A transform divides by its denominator at the point that it is given. Transforms that are put
together divide once, at the end, and by a denominator that is the product of those of the steps
(`wRow_valueAt_andThen`). The two ways lead to the same point as long as nothing is divided by zero
on the way (`Transform.andThen_applies_in_turn`), and a denominator of one, which divides nothing
either, makes no difference.

All of this is about exact arithmetic, so the coordinates come from a field.

Nothing is assumed about the coordinates but that they form a field. Floating-point numbers do
not, so what is shown is that the way of composing is right, and nothing is said of rounding.
-/

namespace GraphGrammar

variable {α : Type} [Field α]

/-- **A linear form after a transform** has the form's coefficients for the values of the
transform's rows. -/
theorem Row.valueAt_after (r : Row α) (t : Transform α) (p : Point α) :
    (r.after t).valueAt p
      = r.x * t.xRow.valueAt p + r.y * t.yRow.valueAt p + r.one * t.wRow.valueAt p := by
  simp only [valueAt, after]
  ring

namespace Transform

/-- Some transforms after a first one, put together. The denominators of the steps along the way
are not looked at. -/
def composed (first : Transform α) (rest : List (Transform α)) : Transform α :=
  rest.foldl andThen first

section

variable [BEq α]

/-- Where transforms take a point one after the other. After each step the coordinates have been
divided by the denominator there. -/
def applyInTurn (steps : List (Transform α)) (p : Point α) : Point α :=
  steps.foldl (fun q t => t.apply q) p

/-- A transform of the plane leaves the height of a point alone. -/
theorem z_apply (t : Transform α) (p : Point α) : (t.apply p).z = p.z := by
  unfold apply
  dsimp only
  split <;> rfl

variable [LawfulBEq α] {s t first : Transform α} {p : Point α}

/-- Where the denominator is not zero the coordinates are divided by it. -/
theorem apply_of_ne_zero (hw : t.wRow.valueAt p ≠ 0) :
    t.apply p
      = ⟨t.xRow.valueAt p / t.wRow.valueAt p, t.yRow.valueAt p / t.wRow.valueAt p, p.z⟩ := by
  unfold apply
  dsimp only
  split
  · rename_i hskipped
    have hone : t.wRow.valueAt p = 1 := by simpa [hw] using hskipped
    rw [hone, div_one, div_one]
  · rfl

/-- The value of a linear form at the image of a point. -/
theorem valueAt_apply (hw : t.wRow.valueAt p ≠ 0) (r : Row α) :
    r.valueAt (t.apply p) = (r.after t).valueAt p / t.wRow.valueAt p := by
  rw [apply_of_ne_zero hw, Row.valueAt_after, Row.valueAt, eq_div_iff hw]
  field_simp

/-- **The denominator of two transforms is the product of theirs**, the second one's being that at
the point which the first one leads to. -/
theorem wRow_valueAt_andThen (hs : s.wRow.valueAt p ≠ 0) :
    (s.andThen t).wRow.valueAt p = t.wRow.valueAt (s.apply p) * s.wRow.valueAt p := by
  rw [valueAt_apply hs, div_mul_cancel₀ _ hs]
  rfl

/-- One step after another one. -/
theorem apply_andThen (hs : s.wRow.valueAt p ≠ 0) (hst : (s.andThen t).wRow.valueAt p ≠ 0) :
    (s.andThen t).apply p = t.apply (s.apply p) := by
  have ht : t.wRow.valueAt (s.apply p) ≠ 0 := by
    rw [wRow_valueAt_andThen hs] at hst
    exact left_ne_zero_of_mul hst
  rw [apply_of_ne_zero hst, apply_of_ne_zero ht, z_apply]
  -- on the right both coordinates and the denominator are values over that of `s`
  rw [valueAt_apply hs, valueAt_apply hs, valueAt_apply hs, div_div_div_cancel_right₀ hs,
    div_div_div_cancel_right₀ hs]
  rfl

/-- Any number of steps after a first one. The induction is on the transforms that are left, with
those already put together as the first one. -/
theorem apply_composed {rest : List (Transform α)}
    (hpartial : ∀ steps, steps <+: rest → (composed first steps).wRow.valueAt p ≠ 0) :
    (composed first rest).apply p = applyInTurn (first :: rest) p := by
  induction rest generalizing first with
  | nil => rfl
  | cons t rest ih =>
    have hfirst : first.wRow.valueAt p ≠ 0 := hpartial [] List.nil_prefix
    have hsecond : (first.andThen t).wRow.valueAt p ≠ 0 := hpartial [t] (by simp)
    calc (composed first (t :: rest)).apply p
        = (composed (first.andThen t) rest).apply p := rfl
      _ = applyInTurn rest ((first.andThen t).apply p) :=
        ih fun steps hsteps => hpartial (t :: steps) (List.prefix_cons_inj t |>.2 hsteps)
      _ = applyInTurn rest (t.apply (first.apply p)) := by rw [apply_andThen hfirst hsecond]

/-- **Put together, transforms do what they do one after the other**, from left to right:

* a transform followed by another one, wherever the denominators of the first and of both together
  are not zero;
* and so any number of them, wherever the denominators of the first ones up to each are not zero.

None of them changes z. -/
theorem andThen_applies_in_turn :
    (∀ (s t : Transform α) (p : Point α), s.wRow.valueAt p ≠ 0 →
      (s.andThen t).wRow.valueAt p ≠ 0 → (s.andThen t).apply p = t.apply (s.apply p)) ∧
    (∀ (first : Transform α) (rest : List (Transform α)) (p : Point α),
      (∀ steps, steps <+: rest → (composed first steps).wRow.valueAt p ≠ 0) →
        (composed first rest).apply p = applyInTurn (first :: rest) p) ∧
    ∀ (t : Transform α) (p : Point α), (t.apply p).z = p.z :=
  ⟨fun _ _ _ => apply_andThen, fun _ _ _ => apply_composed, z_apply⟩

end

/-- Two projections with a turn by a right angle in between. At the point (1, 4) the denominators
are 2, then 2 · 1, then 2 · 5 / 2. -/
theorem andThen_applies_in_turn_projections :
    let first : Transform ℚ := projection 1 0
    let rest : List (Transform ℚ) := [⟨⟨0, -1, 0⟩, ⟨1, 0, 0⟩, ⟨0, 0, 1⟩⟩, projection 0 3]
    let p : Point ℚ := ⟨1, 4, 7⟩
    (∀ steps, steps <+: rest → (composed first steps).wRow.valueAt p ≠ 0) ∧
      (composed first rest).wRow.valueAt p = 5 ∧
      applyInTurn (first :: rest) p = ⟨-4 / 5, 1 / 5, 7⟩ ∧
      (composed first rest).apply p = ⟨-4 / 5, 1 / 5, 7⟩ := by
  intro first rest p
  have hpartial : ∀ steps, steps <+: rest → (composed first steps).wRow.valueAt p ≠ 0 := by
    intro steps hsteps
    have hall : ∀ steps ∈ rest.inits, (composed first steps).wRow.valueAt p ≠ 0 := by
      decide +kernel
    exact hall steps ((List.mem_inits steps rest).2 hsteps)
  have hturn : applyInTurn (first :: rest) p = ⟨-4 / 5, 1 / 5, 7⟩ := by decide +kernel
  exact ⟨hpartial, by decide +kernel, hturn,
    ((andThen_applies_in_turn (α := ℚ)).2.1 first rest p hpartial).trans hturn⟩

end Transform

end GraphGrammar
