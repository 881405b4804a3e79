import Mathlib.Algebra.Order.Field.Basic
import Rollerball.Engine.Network
import Rollerball.Engine.Sigmoid

/-!
# Training the network

A training step propagates the squared error of the output backwards and adds to every weight its
share. The errors of a layer are kept in a vector of the size of that layer, but the error of the
output, and the step itself, count layers from the one behind.
-/

namespace Rollerball

open Checked Stream

namespace NeuralNetwork

variable {α ω : Type} [Zero α] [Add α] [Mul α]

section Model

variable (net : NeuralNetwork α) (sigmoid : α → α)

def errorSum (layer i : Nat) (errors : List (List α)) : Option α := do
  let next ← errors[layer + 1]?
  loopUp next.length (fun j weightedSum => do
    return weightedSum + (← (do return (← at2 errors (layer + 1) j) *
      (← at3 net.weights layer j i)))) 0

/-- One turn of the loop that propagates errors. -/
def backwardLayer (layer : Nat) (errors : List (List α)) : Option (List (List α)) := do
  loopUp (← net.layerSizes[layer]?) (fun i errors => do
    store2 errors layer i (← net.errorSum layer i errors)) errors

/-- The errors of all layers, from the outputs and the expected output. -/
def backwardErrors [Sub α] [Pow α Nat] (expected : α) (outputs : List (List α)) :
    Option (List (List α)) := do
  let errors : List (List α) := List.replicate (outputs.length - 1) []
  let errors ← loopUp errors.length (fun layer errors => do
    store errors layer (List.replicate (← net.layerSizes[layer]?) 0)) errors
  let out ← (← outputs.getLast?)[0]?
  let errors ← store errors (errors.length - 1) [(expected - out) ^ 2]
  loopDown (errors.length - 1) net.backwardLayer errors

/-- The new value of `weights[layer][i][j]`. -/
def adjust (errors outputs : List (List α)) (layer i j : Nat) (w : α) : Option α := do
  return w + net.learningRate * (← at2 errors layer i) * (← at2 outputs layer j)

/-- `NeuralNetwork::update` -/
def update [Sub α] [Pow α Nat] (fmt : Format α ω) (features : List α) (evaluatedOutput : α)
    (files : Files ω) : Option (NeuralNetwork α × Files ω) := do
  let outputs ← net.forwardPropOutputs sigmoid features
  let errors ← net.backwardErrors (sigmoid evaluatedOutput) outputs
  let weights ← forEach3 (net.adjust errors outputs) net.weights
  let net := { net with weights := weights }
  return (net, net.dumpWeights fmt net.filename files)

end Model

section Errors

variable [OfScientific α] {net : NeuralNetwork α} {inputSize : Nat} {hidden : List Nat}

/-- The error vectors: those before the last have the sizes of their layers, the last holds the
error `e` of the output. -/
structure Errors (inputSize : Nat) (hidden : List Nat) (e : α) (errors : List (List α)) :
    Prop where
  last : errors[hidden.length]? = some [e]
  rows : ∀ k < hidden.length, (errors[k]?).map List.length = some (layerSize inputSize hidden k)

def errorSize (inputSize : Nat) (hidden : List Nat) (k : Nat) : Nat :=
  if k = hidden.length then 1 else layerSize inputSize hidden k

omit [Zero α] [Add α] [Mul α] [OfScientific α] in
theorem Errors.row {e : α} {errors : List (List α)} (h : Errors inputSize hidden e errors) {k : Nat}
    (hk : k ≤ hidden.length) :
    ∃ row, errors[k]? = some row ∧ row.length = errorSize inputSize hidden k := by
  rw [errorSize]
  split_ifs with hlast
  · exact ⟨[e], hlast ▸ h.last, rfl⟩
  · exact Option.map_eq_some_iff.mp (h.rows k (by omega))

omit [Zero α] [Add α] [Mul α] [OfScientific α] in
theorem Errors.at2_isSome {e : α} {errors : List (List α)} (h : Errors inputSize hidden e errors)
    {k : Nat} (hk : k ≤ hidden.length) (i : Nat) :
    (at2 errors k i).isSome ↔ i < errorSize inputSize hidden k := by
  obtain ⟨row, hrow, hlength⟩ := h.row hk
  simp [at2, hrow, hlength]

theorem Wf.errorSum_eq (h : net.Wf inputSize hidden) {k i : Nat}
    (hk : k < hidden.length) (hi : i < layerSize inputSize hidden k) {errors : List (List α)}
    {next : List α} (hnext : errors[k + 1]? = some next)
    (hfits : next.length ≤ layerSize inputSize hidden (k + 1)) :
    net.errorSum k i errors = some ((List.range next.length).foldl
      (fun sum j => sum + next.getD j 0 * net.weight k j i) 0) := by
  rw [errorSum, hnext]
  refine loopUp_sum (fun j hj => ?_) 0
  have hread : at2 errors (k + 1) j = some (next.getD j 0) := by simp [at2, hnext, hj]
  rw [hread, h.at3_eq (by omega) (by omega) hi]
  rfl

theorem Wf.backwardLayer_eq (h : net.Wf inputSize hidden) {k : Nat}
    (hk : k < hidden.length) {e : α} {errors : List (List α)}
    (herrors : Errors inputSize hidden e errors)
    (hfits : layerSize inputSize hidden k = 0 ∨
      errorSize inputSize hidden (k + 1) ≤ layerSize inputSize hidden (k + 1)) :
    ∃ errors', net.backwardLayer k errors = some errors' ∧
      Errors inputSize hidden e errors' := by
  obtain ⟨row, hrow, hlength⟩ := herrors.row hk.le
  obtain ⟨next, hnext, hnextLength⟩ := herrors.row (show k + 1 ≤ hidden.length by omega)
  rw [errorSize, if_neg hk.ne] at hlength
  let g := fun i => (List.range next.length).foldl
    (fun sum j => sum + next.getD j 0 * net.weight k j i) 0
  have hvalue : ∀ i < row.length, ∀ ys, net.errorSum k i (errors.set k ys) = some (g i) := by
    intro i hi ys
    have hafter : (errors.set k ys)[k + 1]? = some next := by
      rw [List.getElem?_set_ne (by omega), hnext]
    exact h.errorSum_eq hk (by omega) hafter (by omega)
  have hrun : net.backwardLayer k errors =
      some (errors.set k ((List.range row.length).map g)) := by
    rw [backwardLayer, h.layers, getElem?_allLayers (by omega), ← hlength]
    exact loopUp_fill hrow (net.errorSum k) g hvalue
  have hlt : k < errors.length := (List.getElem?_eq_some_iff.mp hrow).1
  refine ⟨_, hrun, by rw [List.getElem?_set_ne (by omega), herrors.last], fun m hm => ?_⟩
  by_cases hmk : m = k
  · rw [hmk, List.getElem?_set_self hlt, Option.map_some, List.length_map, List.length_range,
      hlength]
  · rw [List.getElem?_set_ne (Ne.symm hmk), herrors.rows m hm]

/-- The error of the output is out of range of the weights of an empty last hidden layer. -/
theorem Wf.backwardLayer_none (h : net.Wf inputSize hidden) {k : Nat}
    (hk : k + 1 = hidden.length) {e : α} {errors : List (List α)}
    (herrors : Errors inputSize hidden e errors) (hpos : layerSize inputSize hidden k ≠ 0)
    (hempty : layerSize inputSize hidden (k + 1) = 0) : net.backwardLayer k errors = none := by
  obtain ⟨n, hn⟩ := Nat.exists_eq_succ_of_ne_zero hpos
  by_contra hsome
  obtain ⟨errors', hrun⟩ := Option.ne_none_iff_exists'.mp hsome
  rw [backwardLayer, h.layers, getElem?_allLayers (by omega), hn] at hrun
  obtain ⟨_, hturn⟩ := loopUp_first hrun
  obtain ⟨_, hsum, _⟩ := Option.bind_eq_some_iff.mp hturn
  rw [errorSum, hk, herrors.last, Option.bind_eq_bind, Option.bind_some, List.length_singleton]
    at hsum
  obtain ⟨_, hterm⟩ := loopUp_first hsum
  have hnone : at3 net.weights k 0 0 = none := by
    rw [← Option.not_isSome_iff_eq_none, h.at3_weights]
    omega
  simp [hnone] at hterm

theorem Wf.loopDown_errors (h : net.Wf inputSize hidden) {e : α}
    {errors : List (List α)} (herrors : Errors inputSize hidden e errors)
    (hlast : ∀ k, k + 1 = hidden.length →
      layerSize inputSize hidden k = 0 ∨ layerSize inputSize hidden (k + 1) ≠ 0) :
    ∃ errors', loopDown hidden.length net.backwardLayer errors = some errors' ∧
      Errors inputSize hidden e errors' := by
  let Inv (_ : Nat) (errors : List (List α)) : Prop := Errors inputSize hidden e errors
  have hstart : Inv hidden.length errors := herrors
  have hstep : ∀ k < hidden.length, ∀ errors, Inv (k + 1) errors →
      ∃ errors', net.backwardLayer k errors = some errors' ∧ Inv k errors' := by
    intro k hk errors herrors
    refine h.backwardLayer_eq hk herrors ?_
    rw [errorSize]
    split_ifs with hnext
    · exact (hlast k hnext).imp_right Nat.one_le_iff_ne_zero.mpr
    · exact Or.inr le_rfl
  exact loopDown_spec hstart hstep

theorem Wf.loopDown_isSome_iff (h : net.Wf inputSize hidden) {e : α}
    {errors : List (List α)} (herrors : Errors inputSize hidden e errors) :
    (loopDown hidden.length net.backwardLayer errors).isSome ↔
      ∀ k, k + 1 = hidden.length →
        layerSize inputSize hidden k = 0 ∨ layerSize inputSize hidden (k + 1) ≠ 0 := by
  constructor
  · intro hsome k hk
    by_contra hcontra
    push Not at hcontra
    rw [← hk, loopDown, h.backwardLayer_none hk herrors hcontra.1 hcontra.2] at hsome
    exact Bool.false_ne_true hsome
  · intro hlast
    obtain ⟨errors', hloop, _⟩ := h.loopDown_errors herrors hlast
    rw [hloop]
    rfl

omit [Add α] [Mul α] in
theorem Wf.allocate_errors (h : net.Wf inputSize hidden) :
    ∃ errors : List (List α), loopUp (hidden.length + 1) (fun layer errors => do
        store errors layer (List.replicate (← net.layerSizes[layer]?) 0))
          (List.replicate (hidden.length + 1) []) = some errors ∧
      errors.length = hidden.length + 1 ∧ ∀ k < hidden.length + 1,
        errors[k]? = some (List.replicate (layerSize inputSize hidden k) 0) := by
  let Inv (n : Nat) (errors : List (List α)) : Prop := errors.length = hidden.length + 1 ∧
    ∀ k < n, errors[k]? = some (List.replicate (layerSize inputSize hidden k) 0)
  have hstart : Inv 0 (List.replicate (hidden.length + 1) []) :=
    ⟨List.length_replicate, fun k hk => absurd hk (Nat.not_lt_zero k)⟩
  refine loopUp_spec hstart ?_
  rintro n hn errors ⟨hlength, hrows⟩
  refine ⟨errors.set n (List.replicate (layerSize inputSize hidden n) 0), ?_, ?_, fun k hk => ?_⟩
  · rw [h.layers, getElem?_allLayers (by omega)]
    exact store_of_lt (by omega) _
  · rw [List.length_set, hlength]
  · by_cases hkn : k = n
    · rw [hkn, List.getElem?_set_self (by omega)]
    · rw [List.getElem?_set_ne (Ne.symm hkn), hrows k (by omega)]

theorem Wf.backwardErrors_eq [Sub α] [Pow α Nat] (h : net.Wf inputSize hidden) (expected out : α)
    {outputs : List (List α)} (hlength : outputs.length = hidden.length + 2)
    (hlast : outputs.getLast? = some [out]) :
    ∃ errors, Errors inputSize hidden ((expected - out) ^ 2) errors ∧
      net.backwardErrors expected outputs =
        loopDown hidden.length net.backwardLayer errors := by
  obtain ⟨errors, hloop, hsize, hrows⟩ := h.allocate_errors
  simp only [Option.bind_eq_bind] at hloop
  refine ⟨errors.set hidden.length [(expected - out) ^ 2], ⟨?_, fun k hk => ?_⟩, ?_⟩
  · exact List.getElem?_set_self (by omega)
  · rw [List.getElem?_set_ne (by omega), hrows k (by omega), Option.map_some, List.length_replicate]
  · rw [backwardErrors, hlength, hlast]
    simp only [Option.bind_eq_bind, Option.bind_some, List.length_replicate,
      show hidden.length + 2 - 1 = hidden.length + 1 by omega]
    rw [hloop, Option.bind_some, List.getElem?_cons_zero, Option.bind_some, hsize,
      Nat.add_sub_cancel, store_of_lt (by omega), Option.bind_some, List.length_set, hsize,
      Nat.add_sub_cancel]

end Errors

section Step

variable [OfScientific α] {net : NeuralNetwork α} (sigmoid : α → α) {inputSize : Nat}
  {hidden : List Nat} {features : List α}

/-- The layers the errors fit to: a hidden layer is no wider than the layer before it, or has no
weights, and the last one is not empty behind a layer that is not. -/
structure Trainable (inputSize : Nat) (hidden : List Nat) : Prop where
  tapers : ∀ k < hidden.length, layerSize inputSize hidden k = 0 ∨
    layerSize inputSize hidden (k + 1) ≤ layerSize inputSize hidden k
  last : ∀ k, k + 1 = hidden.length →
    layerSize inputSize hidden k = 0 ∨ layerSize inputSize hidden (k + 1) ≠ 0

omit [Zero α] [OfScientific α] in
theorem adjust_isSome_iff {errors outputs : List (List α)} {k i j : Nat} {w : α} :
    (net.adjust errors outputs k i j w).isSome ↔
      (at2 errors k i).isSome ∧ (at2 outputs k j).isSome := by
  rw [adjust]
  cases at2 errors k i <;> cases at2 outputs k j <;> simp

theorem Wf.adjust_all_iff (h : net.Wf inputSize hidden) (hx : features.length = inputSize) {e : α}
    {errors : List (List α)} (herrors : Errors inputSize hidden e errors) :
    (forEach3 (net.adjust errors (net.activations sigmoid features hidden)) net.weights).isSome ↔
      ∀ k < hidden.length, layerSize inputSize hidden k = 0 ∨
        layerSize inputSize hidden (k + 1) ≤ layerSize inputSize hidden k := by
  simp only [forEach3_isSome_iff, adjust_isSome_iff]
  constructor
  · intro hall k hk
    by_contra hcontra
    push Not at hcontra
    -- the first neuron of the wider layer that has no error in the layer before
    obtain ⟨w, hw⟩ := Option.isSome_iff_exists.mp (h.at3_weights.mpr
      ⟨show k < hidden.length + 1 by omega, hcontra.2, Nat.pos_of_ne_zero hcontra.1⟩)
    have hlt := (herrors.at2_isSome hk.le _).mp (hall _ _ _ w hw).1
    rw [errorSize, if_neg hk.ne] at hlt
    exact lt_irrefl _ hlt
  · intro htapers k i j w hw
    obtain ⟨hk, hi, hj⟩ := h.at3_weights.mp (Option.isSome_of_mem hw)
    refine ⟨(herrors.at2_isSome (Nat.le_of_lt_succ hk) i).mpr ?_, ?_⟩
    · rw [errorSize]
      split_ifs with hlast
      · rwa [hlast, layerSize_last] at hi
      · rcases htapers k (by omega) with hempty | hle
        · omega
        · omega
    · rw [h.activations_at2 sigmoid hx (by omega) hj]
      rfl

variable [Sub α] [Pow α Nat] (fmt : Format α ω) (t : α) (files : Files ω)

theorem Wf.update_eq (h : net.Wf inputSize hidden) (hx : features.length = inputSize) :
    ∃ out errors, net.output sigmoid features = some out ∧
      Errors inputSize hidden ((sigmoid t - out) ^ 2) errors ∧
      net.update sigmoid fmt features t files =
        (loopDown hidden.length net.backwardLayer errors).bind fun errors =>
          (forEach3 (net.adjust errors (net.activations sigmoid features hidden)) net.weights).bind
            fun weights => some ({ net with weights := weights },
              { net with weights := weights }.dumpWeights fmt net.filename files) := by
  let out := sigmoid (net.neuronSum hidden.length (net.activation sigmoid features hidden.length) 0)
  obtain ⟨errors, herrors, hbackward⟩ := h.backwardErrors_eq (sigmoid t) out
    (by simp [activations]) (h.activations_getLast? sigmoid)
  refine ⟨out, errors, h.output_eq sigmoid hx, herrors, ?_⟩
  rw [update, h.forwardPropOutputs_eq sigmoid hx, Option.bind_eq_bind, Option.bind_some,
    Option.bind_eq_bind, hbackward]
  rfl

theorem Wf.update_isSome_iff (h : net.Wf inputSize hidden) (hx : features.length = inputSize) :
    (net.update sigmoid fmt features t files).isSome ↔ Trainable inputSize hidden := by
  obtain ⟨out, errors, _, herrors, hupdate⟩ := h.update_eq sigmoid fmt t files hx
  rw [hupdate]
  constructor
  · intro hsome
    obtain ⟨result, hresult⟩ := Option.isSome_iff_exists.mp hsome
    obtain ⟨errors', hloop, hrest⟩ := Option.bind_eq_some_iff.mp hresult
    obtain ⟨weights, hweights, _⟩ := Option.bind_eq_some_iff.mp hrest
    have hlast := (h.loopDown_isSome_iff herrors).mp (Option.isSome_of_mem hloop)
    obtain ⟨errors'', hloop', herrors'⟩ := h.loopDown_errors herrors hlast
    obtain rfl : errors'' = errors' := Option.some.inj (hloop'.symm.trans hloop)
    exact ⟨(h.adjust_all_iff sigmoid hx herrors').mp (Option.isSome_of_mem hweights), hlast⟩
  · intro htrain
    obtain ⟨errors', hloop, herrors'⟩ := h.loopDown_errors herrors htrain.last
    obtain ⟨weights, hweights⟩ := Option.isSome_iff_exists.mp
      ((h.adjust_all_iff sigmoid hx herrors').mpr htrain.tapers)
    rw [hloop, Option.bind_some, hweights]
    rfl

theorem Wf.update_some (h : net.Wf inputSize hidden) (hx : features.length = inputSize)
    {net' : NeuralNetwork α} {files' : Files ω}
    (hrun : net.update sigmoid fmt features t files = some (net', files')) :
    ∃ out errors, net.output sigmoid features = some out ∧
      Errors inputSize hidden ((sigmoid t - out) ^ 2) errors ∧ net'.Wf inputSize hidden ∧
      ∀ k i j, at3 net'.weights k i j = (at3 net.weights k i j).bind
        (net.adjust errors (net.activations sigmoid features hidden) k i j) := by
  obtain ⟨out, errors, hout, herrors, hupdate⟩ := h.update_eq sigmoid fmt t files hx
  have hlast := ((h.update_isSome_iff sigmoid fmt t files hx).mp (Option.isSome_of_mem hrun)).last
  obtain ⟨errors', hloop, herrors'⟩ := h.loopDown_errors herrors hlast
  rw [hupdate, hloop, Option.bind_some] at hrun
  obtain ⟨weights, hweights, hresult⟩ := Option.bind_eq_some_iff.mp hrun
  obtain ⟨rfl, _⟩ := Prod.mk.inj (Option.some.inj hresult)
  exact ⟨out, errors', hout, herrors',
    ⟨h.layers, h.rate, (forEach3_lengths hweights).trans h.weights, h.biases⟩,
    forEach3_at3 hweights⟩

end Step

section Range

variable {inputSize : Nat} {hidden : List Nat}

theorem getElem_layers {k : Nat} (hk : k < (inputSize :: hidden).length) :
    (inputSize :: hidden)[k] = layerSize inputSize hidden k := by
  rw [layerSize, allLayers, List.getD_eq_getElem?_getD, List.getElem?_append_left hk,
    List.getElem?_eq_getElem hk, Option.getD_some]

theorem isChain_layers_iff : (inputSize :: hidden).IsChain (fun m n => n ≤ m) ↔
    ∀ k < hidden.length, layerSize inputSize hidden (k + 1) ≤ layerSize inputSize hidden k := by
  rw [List.isChain_iff_getElem]
  constructor
  · intro h k hk
    have hle := h k (by simpa using hk)
    rwa [getElem_layers, getElem_layers] at hle
  · intro h k hk
    rw [getElem_layers, getElem_layers]
    exact h k (by simpa using hk)

/-- Without empty layers the errors fit exactly if the layers taper. -/
theorem trainable_iff (hsizes : ∀ n ∈ inputSize :: hidden, 1 ≤ n) :
    Trainable inputSize hidden ↔ (inputSize :: hidden).IsChain fun m n => n ≤ m := by
  have hpos : ∀ k < (inputSize :: hidden).length, layerSize inputSize hidden k ≠ 0 := by
    intro k hk
    have hmem := List.getElem_mem hk
    rw [getElem_layers hk] at hmem
    exact Nat.one_le_iff_ne_zero.mp (hsizes _ hmem)
  rw [isChain_layers_iff]
  constructor
  · intro h k hk
    exact (h.tapers k hk).resolve_left (hpos k (by simp; omega))
  · exact fun h => ⟨fun k hk => Or.inr (h k hk), fun k hk => Or.inr (hpos _ (by simp; omega))⟩

variable [Sub α] [Pow α Nat] [OfScientific α]

/-- Forward propagation and a training step use only indices in range exactly if no hidden layer
is wider than the layer before it. -/
theorem training_in_range_iff (sigmoid : α → α) (fmt : Format α ω) (filename : String)
    (randomizeWeights : Bool) (random : Nat → α) (files files' : Files ω) {features : List α}
    (t : α) (hsizes : ∀ n ∈ inputSize :: hidden, 1 ≤ n) (hx : features.length = inputSize) :
    let net := (construct fmt inputSize hidden filename randomizeWeights random files).1
    ((net.forwardPropOutputs sigmoid features).isSome ∧
        (net.update sigmoid fmt features t files').isSome) ↔
      (inputSize :: hidden).IsChain fun m n => n ≤ m := by
  intro net
  have hwf : net.Wf inputSize hidden := construct_wf randomizeWeights
  rw [hwf.forwardPropOutputs_eq sigmoid hx, hwf.update_isSome_iff sigmoid fmt t files' hx,
    trainable_iff hsizes]
  exact and_iff_right rfl

end Range

/-- A network with hidden layers of two and one neurons behind two inputs. -/
theorem training_in_range_tapered :
    let net := (construct (Format.exact ℝ) 2 [2, 1] "weights.txt" true (fun _ => 1) fun _ => []).1
    (net.forwardPropOutputs sigmoid [0, 1]).isSome ∧
      (net.update sigmoid (Format.exact ℝ) [0, 1] 1 fun _ => []).isSome :=
  (training_in_range_iff sigmoid (Format.exact ℝ) "weights.txt" true (fun _ => 1) (fun _ => [])
    (fun _ => []) 1 (by decide) rfl).mpr (by decide)

/-- With a hidden layer of two neurons behind one input, the second neuron has no error. -/
theorem training_out_of_range :
    ¬∀ (inputSize : Nat) (hidden : List Nat), (∀ n ∈ inputSize :: hidden, 1 ≤ n) →
      ∀ (random : Nat → ℝ) (features : List ℝ), features.length = inputSize → ∀ t,
        let net := (construct (Format.exact ℝ) inputSize hidden "weights.txt" true random
          fun _ => []).1
        (net.forwardPropOutputs sigmoid features).isSome ∧
          (net.update sigmoid (Format.exact ℝ) features t fun _ => []).isSome := by
  intro hclaim
  have hwf : (construct (Format.exact ℝ) 1 [2] "weights.txt" true (fun _ => 1) fun _ => []).1.Wf
      1 [2] := construct_wf true
  have htrain := (hwf.update_isSome_iff sigmoid (Format.exact ℝ) 0 (fun _ => []) rfl).mp
    (hclaim 1 [2] (by decide) (fun _ => 1) [0] rfl 0).2
  exact absurd (htrain.tapers 0 (by decide)) (by decide)

end NeuralNetwork

end Rollerball
