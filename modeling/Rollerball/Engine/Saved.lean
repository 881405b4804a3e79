import Mathlib.Algebra.Order.Field.Basic
import Mathlib.Logic.Function.Iterate
import Mathlib.Tactic.NormNum
import Rollerball.Engine.Network
import Rollerball.Engine.Sigmoid

/-!
# Saved networks

A file holds the weights of a network but not its biases, so that a network built from the file
has the weights of the one that was saved and biases of zero.
-/

namespace Rollerball

open Checked Stream

namespace NeuralNetwork

variable {α ω : Type} {inputSize : Nat} {hidden : List Nat}

section Reload

variable [Zero α] {net : NeuralNetwork α} {fmt : Format α ω}

theorem loadWeights_eq (hfmt : fmt.Lossless) {layers : List (List (List α))}
    (hshape : layers.map (List.map List.length) = net.weights.map (List.map List.length))
    {file : String} {files : Files ω} (hfile : files file = layers.flatMap (putLayer fmt)) :
    net.loadWeights fmt file files = { net with weights := layers } := by
  have hlayer : ∀ rows old : List (List α), rows.map List.length = old.map List.length →
      Reads (putLayer fmt) (fill (fill (extract fmt))) rows old := fun rows old hrows =>
    (fill_reads_of_map _ (fun row old => fill_extract_reads hfmt) hrows).concat_endl
  have hat : Reader.At ⟨files file, true⟩ (layers.flatMap (putLayer fmt) ++ []) := by
    rw [List.append_nil, hfile]
    exact Reader.at_start _
  obtain ⟨_, hfill, _⟩ := fill_reads_of_map _ hlayer hshape [] _ hat
  rw [loadWeights, hfill]

variable [OfScientific α]

/-- The network constructed with the given sizes from the file that `net` was saved to. -/
def reload (fmt : Format α ω) (inputSize : Nat) (hidden : List Nat) (file : String)
    (random : Nat → α) (files : Files ω) (net : NeuralNetwork α) : NeuralNetwork α :=
  (construct fmt inputSize hidden file false random (net.dumpWeights fmt file files)).1

theorem Wf.reload_eq (h : net.Wf inputSize hidden) (hfmt : fmt.Lossless) (file : String)
    (random : Nat → α) (files : Files ω) :
    reload fmt inputSize hidden file random files net =
      { allocate inputSize hidden file with weights := net.weights } :=
  loadWeights_eq hfmt (h.weights.trans allocate_wf.weights.symm) (Function.update_self _ _ _)

theorem allocate_bias (file : String) (k i : Nat) :
    (allocate inputSize hidden file : NeuralNetwork α).bias k i = 0 := by
  have hentry : ∀ n, ((List.replicate n (0 : α))[i]?).getD 0 = 0 := by
    intro n
    rw [List.getElem?_replicate]
    split_ifs <;> rfl
  rw [bias, at2, allocate, List.getElem?_map]
  cases (List.range ((allLayers inputSize hidden).length - 1))[k]? with
  | none => rfl
  | some m => exact hentry _

end Reload

section Biases

variable [Zero α] [Add α] [Mul α] [OfScientific α] {net net' : NeuralNetwork α}

/-- A layer that an empty layer does not follow. -/
def Visible (inputSize : Nat) (hidden : List Nat) (k : Nat) : Prop :=
  ∀ m, k < m → m < hidden.length + 2 → layerSize inputSize hidden m ≠ 0

def Unbiased (inputSize : Nat) (hidden : List Nat) (net : NeuralNetwork α) : Prop :=
  ∀ k, Visible inputSize hidden (k + 1) → ∀ i, net.bias k i = 0

theorem Wf.activation_eq (h : net.Wf inputSize hidden) (h' : net'.Wf inputSize hidden)
    (hweights : net'.weights = net.weights)
    (hbiases : ∀ k, Visible inputSize hidden (k + 1) → ∀ i, net'.bias k i = net.bias k i)
    (sigmoid : α → α) (features : List α) (k : Nat) (hk : k < hidden.length + 2)
    (hvisible : Visible inputSize hidden k) :
    net'.activation sigmoid features k = net.activation sigmoid features k := by
  induction k with
  | zero => rfl
  | succ k ih =>
    rw [activation, activation, h.layers, h'.layers]
    by_cases hempty : layerSize inputSize hidden (k + 1) = 0
    · rw [← layerSize, hempty]
      rfl
    · have hbefore : Visible inputSize hidden k := by
        intro m hm hlt
        rcases Nat.lt_or_eq_of_le hm with hlater | rfl
        · exact hvisible m hlater hlt
        · exact hempty
      have hneuron : ∀ inputs i, net'.neuronSum k inputs i = net.neuronSum k inputs i := by
        intro inputs i
        simp only [neuronSum, weight, hweights, hbiases k hvisible]
      rw [ih (by omega) hbefore]
      simp only [hneuron]

theorem Wf.output_congr (h : net.Wf inputSize hidden) (h' : net'.Wf inputSize hidden)
    (hweights : net'.weights = net.weights)
    (hbiases : ∀ k, Visible inputSize hidden (k + 1) → ∀ i, net'.bias k i = net.bias k i)
    (sigmoid : α → α) {features : List α} (hx : features.length = inputSize) :
    net'.output sigmoid features = net.output sigmoid features := by
  have hlast : Visible inputSize hidden (hidden.length + 1) := fun m hm hlt => by omega
  have hsame := h.activation_eq h' hweights hbiases sigmoid features (hidden.length + 1)
    (by omega) hlast
  rw [h.activation_last sigmoid, h'.activation_last sigmoid] at hsame
  rw [h.output_eq sigmoid hx, h'.output_eq sigmoid hx]
  exact congrArg some (List.singleton_inj.mp hsame)

end Biases

section Path

variable {K ω : Type} [Field K]

/-- The neuron of each layer on the path from neuron `i` of layer `k + 1` to the output. -/
def path (k i m : Nat) : Nat := if m = k + 1 then i else 0

def pathWeights (K : Type) [Field K] (inputSize : Nat) (hidden : List Nat) (k i : Nat) :
    List (List (List K)) :=
  (List.range (hidden.length + 1)).map fun m =>
    List.replicate (layerSize inputSize hidden (m + 1))
      ((List.range (layerSize inputSize hidden m)).map fun c =>
        if k < m ∧ c = path k i m then 1 else 0)

theorem Wf.pathWeights {net : NeuralNetwork K} (h : net.Wf inputSize hidden) (k i : Nat) :
    { net with weights := pathWeights K inputSize hidden k i }.Wf inputSize hidden :=
  ⟨h.layers, h.rate, by simp [NeuralNetwork.pathWeights, Function.comp_def], h.biases⟩

theorem foldl_select (x : Nat → K) (p : Prop) [Decidable p] (c n : Nat) (b : K) :
    (List.range n).foldl (fun sum j => sum + x j * if p ∧ j = c then 1 else 0) b =
      b + if p ∧ c < n then x c else 0 := by
  induction n with
  | zero => simp
  | succ n ih =>
    rw [List.range_succ, List.foldl_append, ih, List.foldl_cons, List.foldl_nil, add_assoc]
    congr 1
    by_cases hp : p
    · rcases Nat.lt_trichotomy c n with hlt | rfl | hgt
      · simp [hp, hlt, hlt.ne', Nat.lt_succ_of_lt hlt]
      · simp [hp]
      · simp [hp, hgt.ne, Nat.not_lt.mpr hgt.le, Nat.not_lt.mpr hgt]
    · simp [hp]

variable {net : NeuralNetwork K} {k i : Nat} (s : K → K) {features : List K}

theorem neuronSum_path
    (hweights : net.weights = NeuralNetwork.pathWeights K inputSize hidden k i) {m r : Nat}
    (hm : m < hidden.length + 1) (hr : r < layerSize inputSize hidden (m + 1)) {inputs : List K}
    (hinputs : inputs.length = layerSize inputSize hidden m) :
    net.neuronSum m inputs r = net.bias m r +
      if k < m ∧ path k i m < layerSize inputSize hidden m then inputs.getD (path k i m) 0
      else 0 := by
  rw [neuronSum, hinputs, ← foldl_select (fun j => inputs.getD j 0)]
  refine List.foldl_ext _ _ _ fun sum j hj => ?_
  have hweight : net.weight m r j = if k < m ∧ j = path k i m then 1 else 0 := by
    rw [weight, at3, at2, hweights, NeuralNetwork.pathWeights]
    simp [hm, hr, List.mem_range.mp hj]
  rw [hweight]

theorem Wf.activation_path (h : net.Wf inputSize hidden) (hx : features.length = inputSize)
    (hweights : net.weights = NeuralNetwork.pathWeights K inputSize hidden k i)
    (hlater : ∀ m > k, ∀ r, net.bias m r = 0) (hvisible : Visible inputSize hidden (k + 1))
    (hi : i < layerSize inputSize hidden (k + 1)) (d : Nat) (hd : k + d < hidden.length + 1) :
    (net.activation s features (k + d + 1)).getD (path k i (k + d + 1)) 0 =
      s^[d + 1] (net.bias k i) := by
  have hstep := fun m r hm hr =>
    neuronSum_path hweights (m := m) (r := r) hm hr (h.activation_length s hx m)
  induction d with
  | zero =>
    rw [Nat.add_zero, path, if_pos rfl, h.activation_getD s hi, hstep k i (by omega) hi,
      if_neg (fun hlt => lt_irrefl k hlt.1), add_zero]
    rfl
  | succ d ih =>
    have hbefore := ih (by omega)
    have hnext : path k i (k + (d + 1) + 1) = 0 := if_neg (by omega)
    have hneuron : 0 < layerSize inputSize hidden (k + (d + 1) + 1) :=
      Nat.pos_of_ne_zero (hvisible _ (by omega) (by omega))
    have hsource : path k i (k + d + 1) < layerSize inputSize hidden (k + d + 1) := by
      rw [path]
      split_ifs with hfirst
      · rwa [hfirst]
      · exact Nat.pos_of_ne_zero (hvisible _ (by omega) (by omega))
    rw [hnext, h.activation_getD s hneuron, hstep _ 0 (by omega) hneuron, hlater _ (by omega),
      zero_add]
    rw [← Nat.add_assoc, if_pos ⟨by omega, hsource⟩, hbefore]
    exact (Function.iterate_succ_apply' s (d + 1) _).symm

theorem Wf.output_path (h : net.Wf inputSize hidden) (hx : features.length = inputSize)
    (hweights : net.weights = NeuralNetwork.pathWeights K inputSize hidden k i)
    (hlater : ∀ m > k, ∀ r, net.bias m r = 0) (hvisible : Visible inputSize hidden (k + 1))
    (hk : k < hidden.length + 1) (hi : i < layerSize inputSize hidden (k + 1)) :
    net.output s features = some (s^[hidden.length - k + 1] (net.bias k i)) := by
  have hlast := h.activation_path s hx hweights hlater hvisible hi (hidden.length - k) (by omega)
  have hend : path k i (hidden.length + 1) = 0 := by
    rw [path]
    split_ifs with hfirst
    · rw [← hfirst, layerSize_last] at hi
      omega
    · rfl
  rw [Nat.add_sub_of_le (by omega), hend, h.activation_last s] at hlast
  rw [h.output_eq s hx]
  exact congrArg some hlast

end Path

section RoundTrip

variable {K ω : Type} [Field K] [LinearOrder K] [IsStrictOrderedRing K] (s : Sigmoid K)
  {net : NeuralNetwork K} {fmt : Format K ω}

omit [LinearOrder K] [IsStrictOrderedRing K] in
theorem Wf.bias_outside (h : net.Wf inputSize hidden) {k i : Nat}
    (hout : ¬(k < hidden.length + 1 ∧ i < layerSize inputSize hidden (k + 1))) :
    net.bias k i = 0 := by
  rw [← h.at2_biases, Option.not_isSome_iff_eq_none] at hout
  rw [bias, hout, Option.getD_none]

omit [IsStrictOrderedRing K] in
/-- Equal outputs along every path leave no visible bias. -/
theorem Wf.unbiased_of_outputs (h : net.Wf inputSize hidden) (file : String)
    (hsame : ∀ weights, { net with weights := weights }.Wf inputSize hidden →
      ∀ features : List K, features.length = inputSize →
        { allocate inputSize hidden file with weights := weights }.output s.toFun features =
          { net with weights := weights }.output s.toFun features) :
    net.Unbiased inputSize hidden := by
  intro k
  induction hn : hidden.length + 1 - k using Nat.strong_induction_on generalizing k with
  | _ n ih =>
    intro hvisible i
    by_cases hrange : k < hidden.length + 1 ∧ i < layerSize inputSize hidden (k + 1)
    · have hlater : ∀ m > k, ∀ r, net.bias m r = 0 := by
        intro m hm r
        by_cases hlt : m < hidden.length + 1
        · exact ih _ (by omega) m rfl (fun m' hm' => hvisible m' (by omega)) r
        · exact h.bias_outside fun hin => hlt hin.1
      have hx : (List.replicate inputSize (0 : K)).length = inputSize := List.length_replicate
      have hallocate : (allocate inputSize hidden file : NeuralNetwork K).Wf inputSize hidden :=
        allocate_wf
      have hseen := (h.pathWeights k i).output_path s.toFun hx rfl hlater hvisible hrange.1 hrange.2
      have hread := (hallocate.pathWeights k i).output_path s.toFun hx rfl
        (fun m _ r => allocate_bias file m r) hvisible hrange.1 hrange.2
      have houtputs := hsame _ (h.pathWeights k i) _ hx
      rw [hseen, hread] at houtputs
      have hbias := s.injective.iterate _ (Option.some.inj houtputs)
      exact hbias.symm.trans (allocate_bias file k i)
    · exact h.bias_outside hrange

theorem evaluate_eq_iff {net net' : NeuralNetwork K} {features : List K} :
    net'.evaluate s.toFun features = net.evaluate s.toFun features ↔
      net'.output s.toFun features = net.output s.toFun features := by
  have hmap : ∀ net : NeuralNetwork K, net.evaluate s.toFun features =
      (net.output s.toFun features).map (· * 100) := by
    intro net
    rw [evaluate]
    cases net.output s.toFun features <;> rfl
  rw [hmap, hmap]
  exact (Option.map_injective (mul_left_injective₀ (by norm_num))).eq_iff

/-- A saved and reloaded network evaluates as the network it was saved from, whatever the weights,
exactly if no layer that an empty one does not follow has a bias. -/
theorem reload_evaluates_iff (h : net.Wf inputSize hidden) (hfmt : fmt.Lossless) (file : String)
    (random : Nat → K) (files : Files ω) :
    (∀ weights, { net with weights := weights }.Wf inputSize hidden →
        ∀ features : List K, features.length = inputSize →
          (reload fmt inputSize hidden file random files
              { net with weights := weights }).evaluate s.toFun features =
            { net with weights := weights }.evaluate s.toFun features) ↔
      net.Unbiased inputSize hidden := by
  constructor
  · intro hsame
    refine h.unbiased_of_outputs s file fun weights hwf features hx => ?_
    have heval := hsame weights hwf features hx
    rw [hwf.reload_eq hfmt] at heval
    exact (evaluate_eq_iff s).mp heval
  · intro hunbiased weights hwf features hx
    rw [hwf.reload_eq hfmt, evaluate_eq_iff]
    have hallocate : (allocate inputSize hidden file : NeuralNetwork K).Wf inputSize hidden :=
      allocate_wf
    have hread : { allocate inputSize hidden file with weights := weights }.Wf inputSize hidden :=
      ⟨hallocate.layers, hallocate.rate, hwf.weights, hallocate.biases⟩
    exact hwf.output_congr hread rfl
      (fun k hk i => (allocate_bias file k i).trans (hunbiased k hk i).symm) s.toFun hx

end RoundTrip

def biased : NeuralNetwork ℝ := ⟨[1, 1], "weights.txt", 0.01, [[[1]]], [[1]]⟩

theorem biased_wf : biased.Wf 1 [] := ⟨rfl, rfl, rfl, rfl⟩

theorem reload_evaluates_biased :
    (∀ weights, { biased with weights := weights }.Wf 1 [] →
        ∀ features : List ℝ, features.length = 1 →
          (reload (Format.exact ℝ) 1 [] "saved.txt" (fun _ => 0) (fun _ => [])
              { biased with weights := weights }).evaluate sigmoid features =
            { biased with weights := weights }.evaluate sigmoid features) ↔
      biased.Unbiased 1 [] :=
  reload_evaluates_iff logistic biased_wf Format.exact_lossless "saved.txt" (fun _ => 0) fun _ => []

/-- The network with a bias of one evaluates its input zero to more than it does once reloaded. -/
theorem reload_loses_biases :
    ¬∀ (net : NeuralNetwork ℝ) (inputSize : Nat) (hidden : List Nat), net.Wf inputSize hidden →
      ∀ features : List ℝ, features.length = inputSize →
        (reload (Format.exact ℝ) inputSize hidden "saved.txt" (fun _ => 0) (fun _ => [])
          net).evaluate sigmoid features = net.evaluate sigmoid features := by
  intro hclaim
  have heval := hclaim biased 1 [] biased_wf [0] rfl
  rw [biased_wf.reload_eq Format.exact_lossless] at heval
  have hread : { (allocate 1 [] "saved.txt" : NeuralNetwork ℝ) with weights := biased.weights }.Wf
      1 [] := ⟨rfl, rfl, rfl, rfl⟩
  have houtputs := (evaluate_eq_iff logistic).mp heval
  rw [hread.output_eq _ rfl, biased_wf.output_eq _ rfl] at houtputs
  have hsums := logistic.injective (Option.some.inj houtputs)
  change (0 + 0 * 1 : ℝ) = 1 + 0 * 1 at hsums
  norm_num at hsums

end NeuralNetwork

end Rollerball
