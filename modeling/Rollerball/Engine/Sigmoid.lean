import Mathlib.Analysis.SpecialFunctions.Sigmoid

/-!
# Activation functions

The network squashes every weighted sum by the logistic function. What is proved of it holds for
every strictly increasing function into the open unit interval.
-/

namespace Rollerball

/-- A strictly increasing function into the open unit interval. -/
structure Sigmoid (K : Type) [Preorder K] [Zero K] [One K] where
  toFun : K → K
  strictMono : StrictMono toFun
  pos : ∀ x, 0 < toFun x
  lt_one : ∀ x, toFun x < 1

theorem Sigmoid.injective {K : Type} [LinearOrder K] [Zero K] [One K] (s : Sigmoid K) :
    Function.Injective s.toFun := s.strictMono.injective

/-- `sigmoid(x) = 1/(1+exp(-x))` -/
noncomputable def sigmoid (x : ℝ) : ℝ := 1 / (1 + Real.exp (-x))

theorem sigmoid_eq : sigmoid = Real.sigmoid := by
  funext x
  rw [sigmoid, Real.sigmoid_def, one_div]

/-- The function of the code. -/
noncomputable def logistic : Sigmoid ℝ where
  toFun := sigmoid
  strictMono := sigmoid_eq ▸ Real.sigmoid_strictMono
  pos x := by rw [sigmoid_eq]; exact Real.sigmoid_pos x
  lt_one x := by rw [sigmoid_eq]; exact Real.sigmoid_lt_one x

end Rollerball
