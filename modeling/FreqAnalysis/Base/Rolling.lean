import Mathlib.Tactic.Ring

/-!
# Rolling polynomials

The value at `p` of the polynomial with the coefficients `ws`, highest first, in a
commutative ring, and how it changes when the window moves by one coefficient.
-/

namespace FreqAnalysis.Base.Rolling

variable {R : Type*} [CommRing R] (p : R)

def poly (ws : List R) : R := ws.foldl (fun f b => p * f + b) 0

theorem foldl_eq (ws : List R) (f : R) :
    ws.foldl (fun f b => p * f + b) f = f * p ^ ws.length + poly p ws := by
  induction ws generalizing f with
  | nil => simp [poly]
  | cons b ws ih =>
    have hcons : poly p (b :: ws) = b * p ^ ws.length + poly p ws := by
      rw [poly, List.foldl_cons, ih]
      ring
    rw [List.foldl_cons, ih, hcons, List.length_cons]
    ring

theorem poly_cons (a : R) (ws : List R) : poly p (a :: ws) = a * p ^ ws.length + poly p ws := by
  rw [poly, List.foldl_cons, foldl_eq]
  ring

theorem poly_concat (ws : List R) (b : R) : poly p (ws ++ [b]) = p * poly p ws + b := by
  rw [poly, List.foldl_append]
  rfl

/-- The window loses `a` on the left and gains `b` on the right. -/
theorem poly_roll (a : R) (ws : List R) (b : R) :
    poly p (ws ++ [b]) = (poly p (a :: ws) - a * p ^ ws.length) * p + b := by
  rw [poly_concat, poly_cons]
  ring

/-- A loop that computes in `W` what `poly` computes in `R`. -/
theorem foldl_represents {W A : Type*} (φ : W → R) (ψ : A → R) (step : W → A → W)
    (hstep : ∀ f b, φ (step f b) = p * φ f + ψ b) (zero : W) (hzero : φ zero = 0) (ws : List A) :
    φ (ws.foldl step zero) = poly p (ws.map ψ) := by
  have hfold : ∀ f, φ (ws.foldl step f) = (ws.map ψ).foldl (fun f b => p * f + b) (φ f) := by
    induction ws with
    | nil => exact fun f => rfl
    | cons b ws ih =>
      intro f
      rw [List.foldl_cons, ih, hstep]
      rfl
  rw [hfold, hzero]
  rfl

end FreqAnalysis.Base.Rolling
