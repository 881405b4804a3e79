import Mathlib.Tactic.FieldSimp
import Mathlib.Tactic.LinearCombination
import Rollerball.Engine.Evaluation
import Rollerball.Lib.Checked
import Rollerball.Lib.Stream

/-!
# Training the weighted sum

A training step adds to each weight its share of the correction, and shares are taken by dividing
by the score. Numbers are exact rationals, and a division by zero has no result.
-/

namespace Rollerball

open Checked Stream

namespace WSum

/-- The fields of the evaluator that a training step uses. -/
structure Learner where
  weights : List ℚ
  learningRate : ℚ
  filename : String
  deriving DecidableEq

/-- The constructor without `randomize`. -/
def Learner.new (filename : String) : Learner := ⟨WSum.weights, 1 / 20, filename⟩

def divide (x y : ℚ) : Option ℚ := if y = 0 then none else some (x / y)

section Step

variable {ω : Type} (fmt : Format ℚ ω) (learner : Learner)

/-- `WSum::dump_weights` -/
def dumpWeights (filename : String) (files : Files ω) : Files ω :=
  Function.update files filename (putLine fmt learner.weights)

def weightedFeatures (features : List ℚ) : Option (List ℚ) :=
  forEach (fun i x => do return x * (← learner.weights[i]?)) features

def weightedSum (features : List ℚ) : Option ℚ := do
  return (← weightedFeatures learner features).foldl (· + ·) 0

/-- The loop of a training step over the weights. -/
def correctedWeights (correction : ℚ) (weightedFeatures : List ℚ) (weightedSum : ℚ) :
    Option (List ℚ) :=
  forEach (fun i w => do
    return w + (← divide (correction * (← weightedFeatures[i]?)) weightedSum)) learner.weights

/-- `WSum::update` -/
def update (features : List ℚ) (evaluatedOutput : ℚ) (files : Files ω) :
    Option (Learner × Files ω) := do
  let priorOutput := evaluate learner.weights features
  let weightedFeatures ← weightedFeatures learner features
  let weightedSum ← weightedSum learner features
  let weights ← correctedWeights learner (learner.learningRate * (evaluatedOutput - priorOutput))
    weightedFeatures weightedSum
  let learner := { learner with weights := weights }
  return (learner, dumpWeights fmt learner learner.filename files)

/-- The divisor is not zero, and the step does not move the evaluation away from the target. -/
def Corrects (features : List ℚ) (target : ℚ) (files : Files ω) : Prop :=
  ∃ sum learner' files', weightedSum learner features = some sum ∧ sum ≠ 0 ∧
    update fmt learner features target files = some (learner', files') ∧
    |evaluate learner'.weights features - target| ≤ |evaluate learner.weights features - target|

end Step

def moment (k : Nat) (weights features : List ℚ) : ℚ :=
  (List.zipWith (fun w x => w * x ^ k) weights features).sum

@[simp] theorem moment_nil (k : Nat) (features : List ℚ) : moment k [] features = 0 := rfl

@[simp] theorem moment_cons (k : Nat) (w x : ℚ) (weights features : List ℚ) :
    moment k (w :: weights) (x :: features) = w * x ^ k + moment k weights features := rfl

/-- The score is not zero, and either it is the target or the sum of the squares of the features
has the sign of the score and is at most forty times as large. -/
def Correctable (weights features : List ℚ) (target : ℚ) : Prop :=
  moment 1 weights features ≠ 0 ∧ (target = moment 1 weights features ∨
    0 ≤ moment 2 weights features / moment 1 weights features ∧
      moment 2 weights features / moment 1 weights features ≤ 40)

theorem moment_one (weights features : List ℚ) :
    moment 1 weights features = (List.zipWith (fun w x => w * x) weights features).sum := by
  simp only [moment, pow_one]

theorem evaluate_eq_moment {weights features : List ℚ} (h : features.length = weights.length) :
    evaluate weights features = moment 1 weights features := by
  have hfold : (List.zip weights features).foldl
      (fun weightedSum x => weightedSum + x.1 * x.2) 0 =
        ((List.zip weights features).map fun x => x.1 * x.2).foldl (· + ·) 0 :=
    List.foldl_map.symm
  rw [evaluate, if_neg (not_not.mpr h), hfold, List.map_zip_eq_zipWith, ← List.sum_eq_foldl,
    moment_one]
  rfl

theorem moment_corrected (c : ℚ) (weights features : List ℚ) :
    moment 1 (List.zipWith (fun w y => w + c * y) weights
      (List.zipWith (fun x w => x * w) features weights)) features =
      moment 1 weights features + c * moment 2 weights features := by
  induction weights generalizing features with
  | nil => simp
  | cons w weights ih =>
    cases features with
    | nil => simp [moment]
    | cons x features =>
      simp only [List.zipWith_cons_cons, moment_cons, ih]
      ring

theorem abs_corrected_le_iff {s q t : ℚ} (hs : s ≠ 0) :
    |s + 1 / 20 * (t - s) / s * q - t| ≤ |s - t| ↔ t = s ∨ 0 ≤ q / s ∧ q / s ≤ 40 := by
  have hfactor : s + 1 / 20 * (t - s) / s * q - t = (1 - q / s / 20) * (s - t) := by
    field_simp
    ring
  rw [hfactor, abs_mul]
  by_cases ht : t = s
  · simp [ht]
  · have herror : 0 < |s - t| := abs_pos.mpr (sub_ne_zero.mpr (Ne.symm ht))
    rw [mul_le_iff_le_one_left herror, abs_le]
    constructor
    · rintro ⟨hlow, hhigh⟩
      exact .inr ⟨by linarith, by linarith⟩
    · rintro (h | ⟨hlow, hhigh⟩)
      · exact absurd h ht
      · exact ⟨by linarith, by linarith⟩

section Step

variable {ω : Type} {learner : Learner} {features : List ℚ}
  (hlength : features.length = learner.weights.length)

include hlength

theorem weightedFeatures_eq : weightedFeatures learner features =
    some (List.zipWith (fun x w => x * w) features learner.weights) :=
  forEach_zipWith hlength fun m x w _ hw => by simp [hw]

theorem weightedSum_eq :
    weightedSum learner features = some (moment 1 learner.weights features) := by
  have hcomm : List.zipWith (fun x w => x * w) features learner.weights =
      List.zipWith (fun w x => w * x) learner.weights features :=
    List.zipWith_comm.trans (by simp only [mul_comm])
  rw [weightedSum, weightedFeatures_eq hlength, hcomm, moment_one, List.sum_eq_foldl]
  rfl

theorem correctedWeights_eq {sum : ℚ} (hsum : sum ≠ 0) (correction : ℚ) :
    correctedWeights learner correction
        (List.zipWith (fun x w => x * w) features learner.weights) sum =
      some (List.zipWith (fun w y => w + correction / sum * y) learner.weights
        (List.zipWith (fun x w => x * w) features learner.weights)) := by
  refine forEach_zipWith (by simp [hlength]) fun m w y _ hy => ?_
  have hshare : correction * y / sum = correction / sum * y := by ring
  simp [hy, divide, hsum, hshare]

/-- A step that divides by a score other than zero adds to the evaluation the correction times
the second moment, in units of the score. -/
theorem update_eq (hsum : moment 1 learner.weights features ≠ 0) (fmt : Format ℚ ω) (target : ℚ)
    (files : Files ω) :
    ∃ learner' files', update fmt learner features target files = some (learner', files') ∧
      evaluate learner'.weights features = moment 1 learner.weights features +
        learner.learningRate * (target - moment 1 learner.weights features) /
          moment 1 learner.weights features * moment 2 learner.weights features := by
  simp only [update, weightedFeatures_eq hlength, weightedSum_eq hlength,
    evaluate_eq_moment hlength, correctedWeights_eq hlength hsum, Option.bind_eq_bind,
    Option.bind_some]
  refine ⟨_, _, rfl, ?_⟩
  rw [evaluate_eq_moment (by simp [hlength]), moment_corrected]

theorem corrects_iff (hrate : learner.learningRate = 1 / 20) (fmt : Format ℚ ω) (target : ℚ)
    (files : Files ω) :
    Corrects fmt learner features target files ↔ Correctable learner.weights features target := by
  have hevaluate := evaluate_eq_moment hlength
  constructor
  · rintro ⟨sum, learner', files', hdivisor, hsum, hupdate, hclose⟩
    obtain rfl : moment 1 learner.weights features = sum :=
      Option.some.inj ((weightedSum_eq hlength).symm.trans hdivisor)
    obtain ⟨_, _, hresult, hnew⟩ := update_eq hlength hsum fmt target files
    obtain ⟨rfl, rfl⟩ : _ = learner' ∧ _ = files' := by
      simpa using hresult.symm.trans hupdate
    rw [hnew, hevaluate, hrate] at hclose
    exact ⟨hsum, (abs_corrected_le_iff hsum).mp hclose⟩
  · rintro ⟨hsum, hratio⟩
    obtain ⟨learner', files', hupdate, hnew⟩ := update_eq hlength hsum fmt target files
    refine ⟨_, learner', files', weightedSum_eq hlength, hsum, hupdate, ?_⟩
    rw [hnew, hevaluate, hrate]
    exact (abs_corrected_le_iff hsum).mpr hratio

end Step

theorem prepareFeatures_length (ord : VisitOrder) (b : Board) (n : Nat) :
    (prepareFeatures ord b n).length = weights.length := rfl

/-- White and Black have the same pieces as far from promotion, and nobody is in check. -/
structure Balanced (ord : VisitOrder) (b : Board) : Prop where
  pawns : numAlive b (pawnSlots .white) .pawn = numAlive b (pawnSlots .black) .pawn
  rooks : numAlive b (rookSlots .white) .rook = numAlive b (rookSlots .black) .rook
  bishops : numAlive b (bishopSlots .white) .bishop = numAlive b (bishopSlots .black) .bishop
  distances : promotionDistance b .white = promotionDistance b .black
  free : b.inCheck ord = false

theorem moment_balanced {ord : VisitOrder} {b : Board} (h : Balanced ord b) (n : Nat) :
    moment 1 weights (prepareFeatures ord b n) = 0 := by
  have hvalue : pieceValue b .white = pieceValue b .black := by
    rw [pieceValue, pieceValue, h.pawns, h.rooks, h.bishops]
  have hcheck : checkFeature ord b n = 0 := by
    rw [checkFeature, if_neg (Bool.eq_false_iff.mp h.free)]
  have heval : moment 1 weights (prepareFeatures ord b n) = eval ord (b, n) :=
    (evaluate_eq_moment (prepareFeatures_length ord b n)).symm
  rw [heval, eval_eq, hvalue, h.pawns, h.rooks, h.bishops, h.distances, hcheck]
  ring

theorem new_balanced : Balanced VisitOrder.insertion Board.new := by
  constructor <;> decide

/-- The first training step on a board is a correction exactly if the two moments of its features
are of one sign, and the second is not too large. -/
theorem update_corrects_iff {ω : Type} (ord : VisitOrder) (b : Board) (target : ℚ)
    (fmt : Format ℚ ω) (filename : String) (files : Files ω) :
    Corrects fmt (Learner.new filename) (prepareFeatures ord b (b.getLegalMoves ord).length)
        target files ↔
      Correctable weights (prepareFeatures ord b (b.getLegalMoves ord).length) target :=
  corrects_iff (prepareFeatures_length ord b _) rfl fmt target files

/-- The start board has a score of zero. -/
theorem update_undefined :
    ¬∀ (b : Board) (target : ℚ), b.Reachable VisitOrder.insertion →
      Corrects (Format.exact ℚ) (Learner.new "")
        (prepareFeatures VisitOrder.insertion b (b.getLegalMoves VisitOrder.insertion).length)
        target (fun _ => []) := by
  intro hclaim
  obtain ⟨hsum, _⟩ := (corrects_iff (prepareFeatures_length _ _ _) rfl _ _ _).mp
    (hclaim Board.new 0 .refl)
  exact hsum (moment_balanced new_balanced _)

end WSum

end Rollerball
