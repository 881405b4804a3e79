import Rollerball.Lib.Checked
import Rollerball.Lib.Stream

/-!
# The neural network

The engine's other evaluator is a network of fully connected layers. Its weights and biases are
nested vectors whose sizes follow from the list of layer sizes; every index the network uses into
its vectors is checked. The numbers are any type with the operations the code uses.
-/

namespace Rollerball

open Checked Stream

structure NeuralNetwork (α : Type) where
  layerSizes : List Nat
  filename : String
  learningRate : α
  weights : List (List (List α))
  biases : List (List α)

namespace NeuralNetwork

variable {α ω : Type}

section Files

variable (fmt : Format α ω) (net : NeuralNetwork α)

/-- `NeuralNetwork::load_weights` -/
def loadWeights [Zero α] (filename : String) (files : Files ω) : NeuralNetwork α :=
  let inputFile : Reader ω := ⟨files filename, true⟩
  { net with weights := (fill (fill (fill (extract fmt))) net.weights inputFile).1 }

def putLayer (layer : List (List α)) : Text ω := layer.flatMap (putLine fmt) ++ [.endl]

/-- `NeuralNetwork::dump_weights` -/
def dumpWeights (filename : String) (files : Files ω) : Files ω :=
  Function.update files filename (net.weights.flatMap (putLayer fmt))

end Files

section Constructor

variable [Zero α]

/-- `layer_sizes`: the hidden layers between the input and one output. -/
def allLayers (inputSize : Nat) (hiddenLayersSizes : List Nat) : List Nat :=
  inputSize :: hiddenLayersSizes ++ [1]

/-- The next number of the generator. -/
def draw (random : Nat → α) (_ : α) (n : Nat) : α × Nat := (random n, n + 1)

def drawLayer (random : Nat → α) (layer : List (List α) × List α) (n : Nat) :
    (List (List α) × List α) × Nat :=
  let (rows, n) := fill (fill (draw random)) layer.1 n
  let (biases, n) := fill (draw random) layer.2 n
  ((rows, biases), n)

/-- A network with vectors of the sizes of its layers, all zero. -/
def allocate [OfScientific α] (inputSize : Nat) (hiddenLayersSizes : List Nat)
    (filename : String) : NeuralNetwork α :=
  let layerSizes := allLayers inputSize hiddenLayersSizes
  let indices := List.range (layerSizes.length - 1)
  { layerSizes := layerSizes
    filename := filename
    learningRate := 0.01
    weights := indices.map fun i =>
      List.replicate (layerSizes.getD (i + 1) 0) (List.replicate (layerSizes.getD i 0) 0)
    biases := indices.map fun i => List.replicate (layerSizes.getD (i + 1) 0) 0 }

/-- `NeuralNetwork::NeuralNetwork`, given the numbers of `normal_random`. -/
def construct [OfScientific α] (fmt : Format α ω) (inputSize : Nat) (hiddenLayersSizes : List Nat)
    (filename : String) (randomizeWeights : Bool) (random : Nat → α) (files : Files ω) :
    NeuralNetwork α × Files ω :=
  let net : NeuralNetwork α := allocate inputSize hiddenLayersSizes filename
  if !randomizeWeights then (net.loadWeights fmt filename files, files)
  else
    let layers := (fill (drawLayer random) (net.weights.zip net.biases) 0).1
    let net := { net with weights := layers.map Prod.fst, biases := layers.map Prod.snd }
    (net, net.dumpWeights fmt filename files)

end Constructor

section Forward

variable [Zero α] [Add α] [Mul α] (net : NeuralNetwork α) (sigmoid : α → α)

def weightedSum (layer i : Nat) (outputs : List (List α)) : Option α := do
  let bias ← at2 net.biases (layer - 1) i
  loopUp (← net.layerSizes[layer - 1]?) (fun j weightedSum => do
    return weightedSum + (← (do return (← at2 outputs (layer - 1) j) *
      (← at3 net.weights (layer - 1) i j)))) bias

def forwardLayer (layer : Nat) (outputs : List (List α)) : Option (List (List α)) := do
  let size ← net.layerSizes[layer]?
  let outputs ← store outputs layer (List.replicate size 0)
  loopUp size (fun i outputs => do
    store2 outputs layer i (← (do return sigmoid (← net.weightedSum layer i outputs)))) outputs

def forwardPropOutputs (features : List α) : Option (List (List α)) := do
  let outputs ← store (List.replicate net.layerSizes.length []) 0 features
  loopUp (net.layerSizes.length - 1) (fun k => net.forwardLayer sigmoid (k + 1)) outputs

/-- The output of the network: `forward_prop_outputs(features).back()[0]`. -/
def output (features : List α) : Option α := do
  (← (← net.forwardPropOutputs sigmoid features).getLast?)[0]?

def evaluate [OfNat α 100] (features : List α) : Option α := do
  return (← net.output sigmoid features) * 100

end Forward

def layerSize (inputSize : Nat) (hidden : List Nat) (k : Nat) : Nat :=
  (allLayers inputSize hidden).getD k 0

/-- What the constructor establishes: the vectors have the sizes of their layers. -/
structure Wf [OfScientific α] (inputSize : Nat) (hidden : List Nat) (net : NeuralNetwork α) :
    Prop where
  layers : net.layerSizes = allLayers inputSize hidden
  rate : net.learningRate = 0.01
  weights : net.weights.map (List.map List.length) = (List.range (hidden.length + 1)).map fun k =>
    List.replicate (layerSize inputSize hidden (k + 1)) (layerSize inputSize hidden k)
  biases : net.biases.map List.length =
    (List.range (hidden.length + 1)).map fun k => layerSize inputSize hidden (k + 1)

section Sizes

variable {inputSize : Nat} {hidden : List Nat}

theorem layerSize_last : layerSize inputSize hidden (hidden.length + 1) = 1 := by
  simp [layerSize, allLayers]

theorem getElem?_allLayers {k : Nat} (hk : k < hidden.length + 2) :
    (allLayers inputSize hidden)[k]? = some (layerSize inputSize hidden k) := by
  have hlength : (allLayers inputSize hidden).length = hidden.length + 2 := by simp [allLayers]
  have hlt : k < (allLayers inputSize hidden).length := hlength ▸ hk
  rw [layerSize, List.getD_eq_getElem?_getD, List.getElem?_eq_getElem hlt, Option.getD_some]

variable [OfScientific α] {net : NeuralNetwork α}

theorem Wf.at3_weights (h : net.Wf inputSize hidden) {k i j : Nat} :
    (at3 net.weights k i j).isSome ↔ k < hidden.length + 1 ∧
      i < layerSize inputSize hidden (k + 1) ∧ j < layerSize inputSize hidden k := by
  rw [at3_isSome_iff, h.weights, List.getElem?_map]
  by_cases hk : k < hidden.length + 1
  · simp [hk, List.getElem?_replicate]
  · simp [hk]

theorem Wf.at2_biases (h : net.Wf inputSize hidden) {k i : Nat} :
    (at2 net.biases k i).isSome ↔
      k < hidden.length + 1 ∧ i < layerSize inputSize hidden (k + 1) := by
  rw [at2_isSome_iff, h.biases, List.getElem?_map]
  by_cases hk : k < hidden.length + 1
  · simp [hk]
  · simp [hk]

variable [Zero α] {fmt : Format α ω} {filename : String} {random : Nat → α} {files : Files ω}

theorem Wf.loadWeights (h : net.Wf inputSize hidden) :
    (net.loadWeights fmt filename files).Wf inputSize hidden := by
  refine ⟨h.layers, h.rate, ?_, h.biases⟩
  rw [← h.weights]
  exact fill_map _ (fun rows s => fill_map _ (fun row s => fill_length _ row s) rows s) _ _

def layerShape (layer : List (List α) × List α) : List Nat × Nat :=
  (layer.1.map List.length, layer.2.length)

omit [OfScientific α] [Zero α] in
theorem layerShape_drawLayer (random : Nat → α) (layer : List (List α) × List α) (n : Nat) :
    layerShape (drawLayer random layer n).1 = layerShape layer :=
  Prod.ext (fill_map _ (fun row n => fill_length _ row n) layer.1 n) (fill_length _ layer.2 _)

omit [OfScientific α] [Zero α] in
theorem fill_drawLayer (random : Nat → α) {weights : List (List (List α))}
    {biases : List (List α)} (hlengths : weights.length = biases.length) (n : Nat) :
    let layers := (fill (drawLayer random) (weights.zip biases) n).1
    (layers.map Prod.fst).map (List.map List.length) = weights.map (List.map List.length) ∧
      (layers.map Prod.snd).map List.length = biases.map List.length := by
  have hkeep := fill_map layerShape (layerShape_drawLayer random) (weights.zip biases) n
  have hfst := congrArg (List.map Prod.fst) hkeep
  have hsnd := congrArg (List.map Prod.snd) hkeep
  have hweights : (weights.zip biases).map Prod.fst = weights :=
    List.map_fst_zip (Nat.le_of_eq hlengths)
  have hbiases : (weights.zip biases).map Prod.snd = biases :=
    List.map_snd_zip (Nat.le_of_eq hlengths.symm)
  simp only [List.map_map] at hfst hsnd
  constructor
  · conv_rhs => rw [← hweights, List.map_map]
    rw [List.map_map]
    exact hfst
  · conv_rhs => rw [← hbiases, List.map_map]
    rw [List.map_map]
    exact hsnd

theorem allocate_wf :
    (allocate inputSize hidden filename : NeuralNetwork α).Wf inputSize hidden := by
  have hindices : (allLayers inputSize hidden).length - 1 = hidden.length + 1 := by
    simp [allLayers]
  refine ⟨rfl, rfl, ?_, ?_⟩
  · simp [allocate, hindices, layerSize, Function.comp_def]
  · simp [allocate, hindices, layerSize, Function.comp_def]

/-- The constructor builds vectors of the sizes it allocates, whatever it fills them with. -/
theorem construct_wf (randomizeWeights : Bool) :
    (construct fmt inputSize hidden filename randomizeWeights random files).1.Wf
      inputSize hidden := by
  have hwf : (allocate inputSize hidden filename : NeuralNetwork α).Wf inputSize hidden :=
    allocate_wf
  cases randomizeWeights with
  | false => exact hwf.loadWeights
  | true =>
    have hlengths : (allocate inputSize hidden filename : NeuralNetwork α).weights.length =
        (allocate inputSize hidden filename : NeuralNetwork α).biases.length := by
      simp [allocate]
    have hlayers := fill_drawLayer random hlengths 0
    exact ⟨rfl, rfl, hlayers.1.trans hwf.weights, hlayers.2.trans hwf.biases⟩

end Sizes

section Activation

variable [Zero α]

def weight (net : NeuralNetwork α) (k i j : Nat) : α := (at3 net.weights k i j).getD 0

def bias (net : NeuralNetwork α) (k i : Nat) : α := (at2 net.biases k i).getD 0

variable [Add α] [Mul α] (net : NeuralNetwork α) (sigmoid : α → α) (features : List α)

def neuronSum (k : Nat) (inputs : List α) (i : Nat) : α :=
  (List.range inputs.length).foldl (fun sum j => sum + inputs.getD j 0 * net.weight k i j)
    (net.bias k i)

def activation : Nat → List α
  | 0 => features
  | k + 1 =>
    (List.range (net.layerSizes.getD (k + 1) 0)).map fun i =>
      sigmoid (net.neuronSum k (activation k) i)

def activations (hidden : List Nat) : List (List α) :=
  (List.range (hidden.length + 2)).map (net.activation sigmoid features)

variable {net features} [OfScientific α] {inputSize : Nat} {hidden : List Nat}

theorem Wf.activation_length (h : net.Wf inputSize hidden) (hx : features.length = inputSize)
    (k : Nat) :
    (net.activation sigmoid features k).length = layerSize inputSize hidden k := by
  cases k with
  | zero => exact hx
  | succ k => rw [activation, List.length_map, List.length_range, h.layers, layerSize]

theorem Wf.activation_getD (h : net.Wf inputSize hidden) {k i : Nat}
    (hi : i < layerSize inputSize hidden (k + 1)) :
    (net.activation sigmoid features (k + 1)).getD i 0 =
      sigmoid (net.neuronSum k (net.activation sigmoid features k) i) := by
  rw [activation, h.layers, ← layerSize, List.getD_eq_getElem?_getD, List.getElem?_map,
    List.getElem?_range hi]
  rfl

omit [Add α] [Mul α] in
theorem Wf.at3_eq (h : net.Wf inputSize hidden) {k i j : Nat} (hk : k < hidden.length + 1)
    (hi : i < layerSize inputSize hidden (k + 1)) (hj : j < layerSize inputSize hidden k) :
    at3 net.weights k i j = some (net.weight k i j) := by
  obtain ⟨w, hw⟩ := Option.isSome_iff_exists.mp (h.at3_weights.mpr ⟨hk, hi, hj⟩)
  rw [weight, hw, Option.getD_some]

omit [Add α] [Mul α] in
theorem Wf.at2_eq (h : net.Wf inputSize hidden) {k i : Nat} (hk : k < hidden.length + 1)
    (hi : i < layerSize inputSize hidden (k + 1)) :
    at2 net.biases k i = some (net.bias k i) := by
  obtain ⟨w, hw⟩ := Option.isSome_iff_exists.mp (h.at2_biases.mpr ⟨hk, hi⟩)
  rw [bias, hw, Option.getD_some]

theorem Wf.weightedSum_eq (h : net.Wf inputSize hidden) {k i : Nat} {outputs : List (List α)}
    {inputs : List α} (hk : k < hidden.length + 1) (hi : i < layerSize inputSize hidden (k + 1))
    (houtputs : outputs[k]? = some inputs)
    (hinputs : inputs.length = layerSize inputSize hidden k) :
    net.weightedSum (k + 1) i outputs = some (net.neuronSum k inputs i) := by
  have hterm : ∀ j < inputs.length,
      (do return (← at2 outputs k j) * (← at3 net.weights k i j) : Option α) =
        some (inputs.getD j 0 * net.weight k i j) := by
    intro j hj
    have hread : at2 outputs k j = some (inputs.getD j 0) := by simp [at2, houtputs, hj]
    rw [hread, h.at3_eq hk hi (hinputs ▸ hj)]
    rfl
  rw [weightedSum, Nat.add_sub_cancel, h.at2_eq hk hi, h.layers, getElem?_allLayers (by omega),
    ← hinputs]
  exact loopUp_sum hterm _

theorem Wf.forwardLayer_eq (h : net.Wf inputSize hidden) {k : Nat} {outputs : List (List α)}
    {inputs : List α} (hk : k < hidden.length + 1) (hlength : k + 1 < outputs.length)
    (houtputs : outputs[k]? = some inputs)
    (hinputs : inputs.length = layerSize inputSize hidden k) :
    net.forwardLayer sigmoid (k + 1) outputs = some (outputs.set (k + 1)
      ((List.range (layerSize inputSize hidden (k + 1))).map fun i =>
        sigmoid (net.neuronSum k inputs i))) := by
  generalize hsize : layerSize inputSize hidden (k + 1) = size
  have hrow : (outputs.set (k + 1) (List.replicate size 0))[k + 1]? =
      some (List.replicate size 0) := List.getElem?_set_self hlength
  have hneuron : ∀ i < (List.replicate size (0 : α)).length, ∀ ys,
      (do return sigmoid (← net.weightedSum (k + 1) i
        ((outputs.set (k + 1) (List.replicate size 0)).set (k + 1) ys)) : Option α) =
          some (sigmoid (net.neuronSum k inputs i)) := by
    intro i hi ys
    rw [List.length_replicate] at hi
    have hbefore : (outputs.set (k + 1) ys)[k]? = some inputs := by
      rw [List.getElem?_set_ne (by omega), houtputs]
    rw [List.set_set, h.weightedSum_eq hk (hsize ▸ hi) hbefore hinputs]
    rfl
  have hfill := loopUp_fill hrow
    (fun i outputs => do return sigmoid (← net.weightedSum (k + 1) i outputs))
    (fun i => sigmoid (net.neuronSum k inputs i)) hneuron
  rw [List.length_replicate, List.set_set] at hfill
  rw [forwardLayer, h.layers, getElem?_allLayers (by omega), hsize]
  simp only [Option.bind_eq_bind, Option.bind_some]
  rw [store_of_lt hlength, Option.bind_some]
  exact hfill

theorem Wf.forwardLoop (h : net.Wf inputSize hidden) (hx : features.length = inputSize) :
    ∃ outputs, loopUp (hidden.length + 1) (fun k => net.forwardLayer sigmoid (k + 1))
        ((List.replicate (hidden.length + 2) []).set 0 features) = some outputs ∧
      outputs.length = hidden.length + 2 ∧
      ∀ m ≤ hidden.length + 1, outputs[m]? = some (net.activation sigmoid features m) := by
  let Inv (k : Nat) (outputs : List (List α)) : Prop := outputs.length = hidden.length + 2 ∧
    ∀ m ≤ k, outputs[m]? = some (net.activation sigmoid features m)
  have hstart : Inv 0 ((List.replicate (hidden.length + 2) []).set 0 features) := by
    refine ⟨by simp, fun m hm => ?_⟩
    obtain rfl : m = 0 := Nat.le_zero.mp hm
    simp [activation]
  refine loopUp_spec hstart ?_
  rintro k hk outputs ⟨hlength, hcomputed⟩
  refine ⟨_, h.forwardLayer_eq sigmoid hk (by omega) (hcomputed k (Nat.le_refl k))
    (h.activation_length sigmoid hx k), by rw [List.length_set, hlength], fun m hm => ?_⟩
  rcases Nat.le_succ_iff.mp hm with hle | rfl
  · rw [List.getElem?_set_ne (by omega), hcomputed m hle]
  · rw [List.getElem?_set_self (by omega), activation, h.layers, layerSize]

/-- Forward propagation stays inside its vectors. -/
theorem Wf.forwardPropOutputs_eq (h : net.Wf inputSize hidden)
    (hx : features.length = inputSize) :
    net.forwardPropOutputs sigmoid features =
      some (net.activations sigmoid features hidden) := by
  have hlayers : net.layerSizes.length = hidden.length + 2 := by rw [h.layers]; simp [allLayers]
  obtain ⟨outputs, hloop, hlength, hcomputed⟩ := h.forwardLoop sigmoid hx
  have houtputs : outputs = net.activations sigmoid features hidden := by
    refine List.ext_getElem? fun m => ?_
    by_cases hm : m ≤ hidden.length + 1
    · rw [hcomputed m hm, activations, List.getElem?_map, List.getElem?_range (by omega),
        Option.map_some]
    · rw [List.getElem?_eq_none_iff.mpr (by omega),
        List.getElem?_eq_none_iff.mpr (by simp [activations]; omega)]
  rw [forwardPropOutputs, hlayers, store_of_lt (by simp)]
  simp only [Option.bind_eq_bind, Option.bind_some]
  rw [show hidden.length + 2 - 1 = hidden.length + 1 by omega, hloop, houtputs]

theorem Wf.activation_last (h : net.Wf inputSize hidden) :
    net.activation sigmoid features (hidden.length + 1) =
      [sigmoid (net.neuronSum hidden.length
        (net.activation sigmoid features hidden.length) 0)] := by
  have hsize : net.layerSizes.getD (hidden.length + 1) 0 = 1 := by
    rw [h.layers]
    exact layerSize_last
  rw [activation, hsize]
  rfl

theorem Wf.activations_getLast? (h : net.Wf inputSize hidden) :
    (net.activations sigmoid features hidden).getLast? =
      some [sigmoid (net.neuronSum hidden.length
        (net.activation sigmoid features hidden.length) 0)] := by
  rw [activations, List.range_succ, List.map_append, List.map_singleton, List.getLast?_concat,
    h.activation_last sigmoid]

theorem Wf.activations_at2 (h : net.Wf inputSize hidden) (hx : features.length = inputSize)
    {k j : Nat} (hk : k < hidden.length + 2) (hj : j < layerSize inputSize hidden k) :
    at2 (net.activations sigmoid features hidden) k j =
      some ((net.activation sigmoid features k).getD j 0) := by
  have hlength := h.activation_length sigmoid hx k
  simp [activations, at2, hk, hlength, hj]

theorem Wf.output_eq (h : net.Wf inputSize hidden) (hx : features.length = inputSize) :
    net.output sigmoid features =
      some (sigmoid (net.neuronSum hidden.length
        (net.activation sigmoid features hidden.length) 0)) := by
  rw [output, h.forwardPropOutputs_eq sigmoid hx, Option.bind_eq_bind, Option.bind_some,
    h.activations_getLast? sigmoid]
  rfl

end Activation

end NeuralNetwork

end Rollerball
