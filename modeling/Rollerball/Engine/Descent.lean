import Mathlib.Tactic.Linarith
import Mathlib.Tactic.NormNum
import Mathlib.Tactic.Positivity
import Rollerball.Engine.Backprop

/-!
# The direction of a training step

The error of the output is a square, and the outputs of a hidden layer are positive, so that a
training step raises every weight of the output layer whenever the output is not the expected one.
-/

namespace Rollerball

open Checked Stream

namespace NeuralNetwork

def OutputWeights {α : Type} (R : α → α → Prop) (net net' : NeuralNetwork α) : Prop :=
  ∀ i j w w', at3 net.weights (net.weights.length - 1) i j = some w →
    at3 net'.weights (net.weights.length - 1) i j = some w' → R w w'

/-- The output weights stay, rise or fall as the expected output lies from the output. -/
structure Pushes {α : Type} [LE α] [LT α] (out expected : α) (net net' : NeuralNetwork α) :
    Prop where
  stays : out = expected → OutputWeights (fun w w' => w' = w) net net'
  rises : out < expected → OutputWeights (fun w w' => w ≤ w') net net'
  falls : expected < out → OutputWeights (fun w w' => w' ≤ w) net net'

section Step

variable {α ω : Type} [Zero α] [Add α] [Mul α] [Sub α] [Pow α Nat] [OfScientific α]
  {net net' : NeuralNetwork α} {sigmoid : α → α} {inputSize : Nat} {hidden : List Nat}
  {features : List α} {fmt : Format α ω} {t : α} {files files' : Files ω}

omit [Zero α] [Add α] [Mul α] [Sub α] [Pow α Nat] in
theorem Wf.weights_length (h : net.Wf inputSize hidden) :
    net.weights.length = hidden.length + 1 := by
  simpa using congrArg List.length h.weights

theorem Wf.update_outputWeights (h : net.Wf inputSize hidden) (hx : features.length = inputSize)
    (hrun : net.update sigmoid fmt features t files = some (net', files')) {out : α}
    (hout : net.output sigmoid features = some out) :
    net'.Wf inputSize hidden ∧ OutputWeights (fun w w' =>
      ∃ j < layerSize inputSize hidden hidden.length,
      w' = w + 0.01 * (sigmoid t - out) ^ 2 *
        (net.activation sigmoid features hidden.length).getD j 0) net net' := by
  obtain ⟨out', errors, hout', herrors, hwf, hweights⟩ := h.update_some sigmoid fmt t files hx hrun
  obtain rfl : out' = out := Option.some.inj (hout'.symm.trans hout)
  refine ⟨hwf, fun i j w w' hw hw' => ?_⟩
  rw [h.weights_length, Nat.add_sub_cancel] at hw hw'
  obtain ⟨_, hi, hj⟩ := h.at3_weights.mp (Option.isSome_of_mem hw)
  obtain rfl : i = 0 := by rw [layerSize_last] at hi; omega
  have herror : at2 errors hidden.length 0 = some ((sigmoid t - out') ^ 2) := by
    simp [at2, herrors.last]
  rw [hweights, hw, Option.bind_some, adjust, herror, h.activations_at2 sigmoid hx (by omega) hj,
    h.rate] at hw'
  exact ⟨j, hj, (Option.some.inj hw').symm⟩

end Step

section Ordered

variable {K ω : Type} [Field K] [LinearOrder K] [IsStrictOrderedRing K] (s : Sigmoid K)
  {net : NeuralNetwork K} {inputSize : Nat} {hidden : List Nat} {features : List K}

omit [IsStrictOrderedRing K] in
theorem Wf.activation_pos (h : net.Wf inputSize hidden) {k j : Nat}
    (hj : j < layerSize inputSize hidden (k + 1)) :
    0 < (net.activation s.toFun features (k + 1)).getD j 0 := by
  rw [h.activation_getD s.toFun hj]
  exact s.pos _

variable {fmt : Format K ω} {t : K} {files files' : Files ω} {net' : NeuralNetwork K} {out : K}

theorem Wf.outputWeights_share (h : net.Wf inputSize hidden) (hne : hidden ≠ [])
    (hx : features.length = inputSize)
    (hrun : net.update s.toFun fmt features t files = some (net', files'))
    (hout : net.output s.toFun features = some out) :
    OutputWeights (fun w w' => ∃ share > 0, w' = w + (s.toFun t - out) ^ 2 * share) net net' := by
  intro i j w w' hw hw'
  obtain ⟨j, hj, hmove⟩ := (h.update_outputWeights hx hrun hout).2 i j w w' hw hw'
  obtain ⟨k, hk⟩ := Nat.exists_eq_succ_of_ne_zero (mt List.length_eq_zero_iff.mp hne)
  rw [hk] at hj hmove
  have hpos : 0 < (net.activation s.toFun features (k + 1)).getD j 0 := h.activation_pos s hj
  refine ⟨0.01 * (net.activation s.toFun features (k + 1)).getD j 0, by positivity, ?_⟩
  rw [hmove]
  ring

theorem Wf.pushes_of_le (h : net.Wf inputSize hidden) (hne : hidden ≠ [])
    (hx : features.length = inputSize)
    (hrun : net.update s.toFun fmt features t files = some (net', files'))
    (hout : net.output s.toFun features = some out) (hle : out ≤ s.toFun t) :
    Pushes out (s.toFun t) net net' := by
  have hshare := h.outputWeights_share s hne hx hrun hout
  refine ⟨fun heq i j w w' hw hw' => ?_, fun _ i j w w' hw hw' => ?_, fun hlt =>
    absurd hle (not_le.mpr hlt)⟩
  · obtain ⟨share, _, hmove⟩ := hshare i j w w' hw hw'
    rw [hmove, heq, sub_self]
    ring
  · obtain ⟨share, hpos, hmove⟩ := hshare i j w w' hw hw'
    rw [hmove]
    exact le_add_of_nonneg_right (by positivity)

theorem Wf.le_of_pushes (h : net.Wf inputSize hidden) (hne : hidden ≠ [])
    (hx : features.length = inputSize)
    (hrun : net.update s.toFun fmt features t files = some (net', files'))
    (hout : net.output s.toFun features = some out)
    (hneurons : layerSize inputSize hidden hidden.length ≠ 0)
    (hpushes : Pushes out (s.toFun t) net net') : out ≤ s.toFun t := by
  by_contra hlt
  have hwf := (h.update_outputWeights hx hrun hout).1
  have hrange : hidden.length < hidden.length + 1 ∧
      0 < layerSize inputSize hidden (hidden.length + 1) ∧
        0 < layerSize inputSize hidden hidden.length :=
    ⟨Nat.lt_succ_self _, by rw [layerSize_last]; exact Nat.one_pos, Nat.pos_of_ne_zero hneurons⟩
  obtain ⟨w, hw⟩ := Option.isSome_iff_exists.mp (h.at3_weights.mpr hrange)
  obtain ⟨w', hw'⟩ := Option.isSome_iff_exists.mp (hwf.at3_weights.mpr hrange)
  have hlast : net.weights.length - 1 = hidden.length := by
    rw [h.weights_length, Nat.add_sub_cancel]
  rw [← hlast] at hw hw'
  obtain ⟨share, hpos, hmove⟩ := h.outputWeights_share s hne hx hrun hout 0 0 w w' hw hw'
  have herror : 0 < (s.toFun t - out) ^ 2 := by
    have hne : s.toFun t - out ≠ 0 := sub_ne_zero.mpr (not_le.mp hlt).ne
    positivity
  have hfalls := hpushes.falls (not_le.mp hlt) 0 0 w w' hw hw'
  have hrises : 0 < (s.toFun t - out) ^ 2 * share := mul_pos herror hpos
  linarith

omit [IsStrictOrderedRing K] in
theorem Wf.pushes_of_empty (h : net.Wf inputSize hidden)
    (hempty : layerSize inputSize hidden hidden.length = 0) (expected : K) :
    Pushes out expected net net' := by
  have hall : ∀ R, OutputWeights R net net' := by
    intro R i j w w' hw _
    rw [h.weights_length, Nat.add_sub_cancel] at hw
    have hj := (h.at3_weights.mp (Option.isSome_of_mem hw)).2.2
    omega
  exact ⟨fun _ => hall _, fun _ => hall _, fun _ => hall _⟩

theorem trainable_of_tapers (hne : hidden ≠ [])
    (htapers : (inputSize :: hidden).IsChain fun m n => n ≤ m) : Trainable inputSize hidden ↔
      layerSize inputSize hidden (hidden.length - 1) = 0 ∨
        layerSize inputSize hidden hidden.length ≠ 0 := by
  have hlength : hidden.length - 1 + 1 = hidden.length :=
    Nat.succ_pred_eq_of_ne_zero (mt List.length_eq_zero_iff.mp hne)
  constructor
  · intro htrain
    have hlast := htrain.last _ hlength
    rwa [hlength] at hlast
  · intro hlast
    refine ⟨fun k hk => Or.inr (isChain_layers_iff.mp htapers k hk), fun k hk => ?_⟩
    obtain rfl : k = hidden.length - 1 := by omega
    rwa [hk]

/-- A step pushes the output weights towards the target exactly if the output is not above it; an
empty last hidden layer leaves no weights to push. -/
theorem training_pushes_iff (h : net.Wf inputSize hidden) (hne : hidden ≠ [])
    (htapers : (inputSize :: hidden).IsChain fun m n => n ≤ m)
    (hx : features.length = inputSize) (fmt : Format K ω) (t : K) (files : Files ω) :
    ∃ out, net.output s.toFun features = some out ∧
      ((∃ net' files', net.update s.toFun fmt features t files = some (net', files') ∧
          Pushes out (s.toFun t) net net') ↔
        layerSize inputSize hidden hidden.length ≠ 0 ∧ out ≤ s.toFun t ∨
          layerSize inputSize hidden hidden.length = 0 ∧
            layerSize inputSize hidden (hidden.length - 1) = 0) := by
  have hout := h.output_eq s.toFun hx
  have hsome := (h.update_isSome_iff s.toFun fmt t files hx).trans (trainable_of_tapers hne htapers)
  refine ⟨_, hout, ?_⟩
  constructor
  · rintro ⟨net', files', hrun, hpushes⟩
    by_cases hempty : layerSize inputSize hidden hidden.length = 0
    · have hlast := (hsome.mp (Option.isSome_of_mem hrun)).resolve_right (not_not.mpr hempty)
      exact Or.inr ⟨hempty, hlast⟩
    · exact Or.inl ⟨hempty, h.le_of_pushes s hne hx hrun hout hempty hpushes⟩
  · rintro (⟨hneurons, hle⟩ | ⟨hempty, hbefore⟩)
    · obtain ⟨⟨net', files'⟩, hrun⟩ := Option.isSome_iff_exists.mp (hsome.mpr (Or.inr hneurons))
      exact ⟨net', files', hrun, h.pushes_of_le s hne hx hrun hout hle⟩
    · obtain ⟨⟨net', files'⟩, hrun⟩ := Option.isSome_iff_exists.mp (hsome.mpr (Or.inl hbefore))
      exact ⟨net', files', hrun, h.pushes_of_empty hempty _⟩

end Ordered

def ones : NeuralNetwork ℝ := ⟨[1, 1, 1], "weights.txt", 0.01, [[[1]], [[1]]], [[1], [1]]⟩

theorem ones_wf : ones.Wf 1 [1] := ⟨rfl, rfl, rfl, rfl⟩

theorem training_pushes_ones :
    ∃ out, ones.output sigmoid [0] = some out ∧
      ((∃ net' files', ones.update sigmoid (Format.exact ℝ) [0] 2 (fun _ => []) =
          some (net', files') ∧ Pushes out (sigmoid 2) ones net') ↔
        layerSize 1 [1] 1 ≠ 0 ∧ out ≤ sigmoid 2 ∨ layerSize 1 [1] 1 = 0 ∧ layerSize 1 [1] 0 = 0) :=
  training_pushes_iff logistic ones_wf (by decide) (by decide) rfl (Format.exact ℝ) 2 fun _ => []

theorem ones_output : ∃ out, ones.output sigmoid [0] = some out ∧ sigmoid 0 < out := by
  refine ⟨_, ones_wf.output_eq sigmoid rfl, logistic.strictMono ?_⟩
  have hpos : 0 < (ones.activation sigmoid [0] 1).getD 0 0 :=
    ones_wf.activation_pos logistic (by decide)
  have hsum : ones.neuronSum 1 (ones.activation sigmoid [0] 1) 0 =
      1 + (ones.activation sigmoid [0] 1).getD 0 0 * 1 := rfl
  change 0 < ones.neuronSum 1 (ones.activation sigmoid [0] 1) 0
  rw [hsum]
  linarith

/-- Expecting the lower output of target zero raises the output weight instead. -/
theorem training_pushes_away :
    ¬∀ (net : NeuralNetwork ℝ) (inputSize : Nat) (hidden : List Nat), net.Wf inputSize hidden →
      hidden ≠ [] → ((inputSize :: hidden).IsChain fun m n => n ≤ m) →
      ∀ features : List ℝ, features.length = inputSize → ∀ t,
        ∃ out net' files', net.output sigmoid features = some out ∧
          net.update sigmoid (Format.exact ℝ) features t (fun _ => []) = some (net', files') ∧
          Pushes out (sigmoid t) net net' := by
  intro hclaim
  obtain ⟨out, net', files', hout, hrun, hpushes⟩ :=
    hclaim ones 1 [1] ones_wf (by decide) (by decide) [0] rfl 0
  obtain ⟨out', hout', hlt⟩ := ones_output
  obtain rfl : out = out' := Option.some.inj (hout.symm.trans hout')
  have hle := ones_wf.le_of_pushes logistic (by decide) rfl hrun hout (by decide) hpushes
  exact absurd hle (not_le.mpr hlt)

end NeuralNetwork

end Rollerball
