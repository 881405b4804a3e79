import Rollerball.Engine.Backprop
import Rollerball.Engine.Correction
import Rollerball.Engine.Saved
import Rollerball.Lib.Sessions

/-!
# Training from run to run

Both evaluators write their weights to a file after every training step. A network is constructed
from its file, and the weighted sum can be told to load it. Files keep a number only as precisely
as it is printed: training that is broken off and taken up again comes to what it would have come
to in memory if the weights had been rounded at each break, and to nothing else.
-/

namespace Rollerball

open Checked Stream Sessions

/-- A file that keeps the integral part of a number. -/
def floorFormat : Format ℚ Int := ⟨Int.floor, fun z => some z⟩

theorem floorFormat_rounds : floorFormat.Rounds fun x => ⌊x⌋ := fun _ => rfl

namespace NeuralNetwork

section Network

variable {α ω : Type}

def rounded (round : α → α) (net : NeuralNetwork α) : NeuralNetwork α :=
  { net with weights := net.weights.map (List.map (List.map round)) }

theorem rounded_id : rounded (id : α → α) = id := by
  funext net
  simp [rounded]

variable [Zero α] [OfScientific α]

/-- A run of the program constructs the network from its file. -/
def fromFile (fmt : Format α ω) (inputSize : Nat) (hidden : List Nat) (filename : String)
    (random : Nat → α) (files : Files ω) : NeuralNetwork α :=
  (construct fmt inputSize hidden filename false random files).1

/-- A network as the constructor allocates it, with weights of the same sizes. -/
structure FromFile (inputSize : Nat) (hidden : List Nat) (filename : String)
    (net : NeuralNetwork α) : Prop where
  allocated : net = { allocate inputSize hidden filename with weights := net.weights }
  wf : net.Wf inputSize hidden

variable {inputSize : Nat} {hidden : List Nat} {filename : String} {fmt : Format α ω}
  {round : α → α}

theorem fromFile_fromFile (random : Nat → α) (files : Files ω) :
    FromFile inputSize hidden filename (fromFile fmt inputSize hidden filename random files) :=
  ⟨rfl, construct_wf false⟩

theorem FromFile.reload {net : NeuralNetwork α} (h : FromFile inputSize hidden filename net)
    (hfmt : fmt.Rounds round) (random : Nat → α) (files : Files ω) :
    fromFile fmt inputSize hidden filename random (net.dumpWeights fmt net.filename files) =
      net.rounded round := by
  have hname : net.filename = filename := by rw [h.allocated]; rfl
  have hlayer : ∀ rows old : List (List α), rows.map List.length = old.map List.length →
      ReadsAs (putLayer fmt) (fill (fill (extract fmt))) rows (rows.map (List.map round)) old :=
    fun rows old hrows =>
      (fill_readsAs_of_map _ (fun row old => fill_extract_readsAs hfmt) hrows).concat_endl
  have hshape := h.wf.weights.trans
    (allocate_wf : (allocate inputSize hidden filename : NeuralNetwork α).Wf _ _).weights.symm
  have hat : Reader.At ⟨net.dumpWeights fmt filename files filename, true⟩
      (net.weights.flatMap (putLayer fmt) ++ []) := by
    rw [List.append_nil, dumpWeights, Function.update_self]
    exact Reader.at_start _
  obtain ⟨_, hfill, _⟩ := fill_readsAs_of_map _ hlayer hshape [] _ hat
  have hloaded : fromFile fmt inputSize hidden filename random
      (net.dumpWeights fmt filename files) =
        { allocate inputSize hidden filename with
          weights := net.weights.map (List.map (List.map round)) } := by
    show loadWeights _ _ _ _ = _
    rw [loadWeights, hfill]
  rw [hname, hloaded, rounded]
  conv_rhs => rw [h.allocated]

variable [Add α] [Mul α] [Sub α] [Pow α Nat]

def train (sigmoid : α → α) (fmt : Format α ω) (net : NeuralNetwork α) (x : List α × α)
    (files : Files ω) : Option (NeuralNetwork α × Files ω) :=
  net.update sigmoid fmt x.1 x.2 files

def learn (sigmoid : α → α) (fmt : Format α ω) (net : NeuralNetwork α) (x : List α × α) :
    Option (NeuralNetwork α) :=
  (net.train sigmoid fmt x fun _ => []).map Prod.fst

omit [OfScientific α] in
theorem train_eq (sigmoid : α → α) (net : NeuralNetwork α) (x : List α × α) (files : Files ω) :
    net.train sigmoid fmt x files =
      (net.learn sigmoid fmt x).map fun net' =>
        (net', net'.dumpWeights fmt net'.filename files) := by
  simp only [learn, train, update, Option.bind_eq_bind, Option.map_bind, Function.comp_def]
  rfl

theorem FromFile.learn {net net' : NeuralNetwork α} (h : FromFile inputSize hidden filename net)
    {sigmoid : α → α} {x : List α × α} (hrun : net.learn sigmoid fmt x = some net') :
    FromFile inputSize hidden filename net' := by
  obtain ⟨⟨_, files⟩, hupdate, rfl⟩ := Option.map_eq_some_iff.mp hrun
  obtain ⟨outputs, _, hupdate⟩ := Option.bind_eq_some_iff.mp hupdate
  obtain ⟨errors, _, hupdate⟩ := Option.bind_eq_some_iff.mp hupdate
  obtain ⟨weights, hweights, hupdate⟩ := Option.bind_eq_some_iff.mp hupdate
  obtain ⟨rfl, _⟩ := Prod.mk.inj (Option.some.inj hupdate)
  constructor
  · show { net with weights := weights } = _
    conv_lhs => rw [h.allocated]
  · exact ⟨h.wf.layers, h.wf.rate, (forEach3_lengths hweights).trans h.wf.weights, h.wf.biases⟩

/-- However the training of a network is divided into runs of the program, and whatever its file
held before the first, the network they come to is that of one run in memory whose weights are
rounded where a run ends. If nothing is rounded the division makes no difference. -/
theorem restarts_round (sigmoid : α → α) (hfmt : fmt.Rounds round) (random : Nat → α)
    (xss : List (List (List α × α))) (files : Files ω) :
    let start := fromFile fmt inputSize hidden filename random
    let trained := (sessions start (train sigmoid fmt) xss files).map Prod.fst
    trained = lived (learn sigmoid fmt) (rounded round) xss (start files) ∧
      (round = id → trained = xss.flatten.foldlM (learn sigmoid fmt) (start files)) := by
  intro start trained
  have hlived : trained = lived (learn sigmoid fmt) (rounded round) xss (start files) :=
    sessions_eq (train_eq sigmoid) (fun _ _ _ h hrun => h.learn hrun)
      (fun _ files h => h.reload hfmt random files) (fromFile_fromFile random) xss files
  refine ⟨hlived, ?_⟩
  rintro rfl
  rw [hlived, rounded_id, lived_id]

end Network

/-- Two runs with a file that keeps the integral part of the weights. -/
theorem restarts_round_floor :
    (sessions (fromFile floorFormat 1 [] "weights.txt" fun _ => 0) (train id floorFormat)
        [[([1], 1)], [([2], 3)]] fun _ => []).map Prod.fst =
      lived (learn id floorFormat) (rounded fun x : ℚ => ⌊x⌋) [[([1], 1)], [([2], 3)]]
        (fromFile floorFormat 1 [] "weights.txt" (fun _ => 0) fun _ => []) :=
  (restarts_round id floorFormat_rounds _ _ _).1

end NeuralNetwork

namespace WSum

section Sum

variable {ω : Type} (fmt : Format ℚ ω)

/-- `WSum::load_weights` -/
def Learner.loadWeights (learner : Learner) (filename : String) (files : Files ω) : Learner :=
  { learner with weights := (fill (extract fmt) learner.weights ⟨files filename, true⟩).1 }

/-- A run of the program that constructs a learner and has it load its file. -/
def Learner.fromFile (filename : String) (files : Files ω) : Learner :=
  (Learner.new filename).loadWeights fmt filename files

def train (learner : Learner) (x : List ℚ × ℚ) (files : Files ω) : Option (Learner × Files ω) :=
  update fmt learner x.1 x.2 files

def learn (learner : Learner) (x : List ℚ × ℚ) : Option Learner :=
  (train fmt learner x fun _ => []).map Prod.fst

def Learner.rounded (round : ℚ → ℚ) (learner : Learner) : Learner :=
  { learner with weights := learner.weights.map round }

/-- A learner as it is constructed, with as many weights. -/
structure FromFile (filename : String) (learner : Learner) : Prop where
  constructed : learner = { Learner.new filename with weights := learner.weights }
  length : learner.weights.length = WSum.weights.length

variable {fmt} {filename : String} {round : ℚ → ℚ}

theorem fromFile_fromFile (files : Files ω) :
    FromFile filename (Learner.fromFile fmt filename files) :=
  ⟨rfl, fill_length _ _ _⟩

theorem FromFile.reload {learner : Learner} (h : FromFile filename learner)
    (hfmt : fmt.Rounds round) (files : Files ω) :
    Learner.fromFile fmt filename (dumpWeights fmt learner learner.filename files) =
      learner.rounded round := by
  have hname : learner.filename = filename := by rw [h.constructed]; rfl
  have hat : Reader.At ⟨dumpWeights fmt learner filename files filename, true⟩
      (putLine fmt learner.weights ++ []) := by
    rw [List.append_nil, dumpWeights, Function.update_self]
    exact Reader.at_start _
  obtain ⟨_, hfill, _⟩ := fill_extract_readsAs hfmt h.length [] _ hat
  have hloaded : Learner.fromFile fmt filename (dumpWeights fmt learner filename files) =
      { Learner.new filename with weights := learner.weights.map round } := by
    show Learner.loadWeights _ _ _ _ = _
    rw [Learner.loadWeights]
    exact congrArg (fun weights => { Learner.new filename with weights := weights })
      (congrArg Prod.fst hfill)
  rw [hname, hloaded, Learner.rounded]
  conv_rhs => rw [h.constructed]

theorem train_eq (learner : Learner) (x : List ℚ × ℚ) (files : Files ω) :
    train fmt learner x files = (learn fmt learner x).map fun learner' =>
      (learner', dumpWeights fmt learner' learner'.filename files) := by
  simp only [learn, train, update, Option.bind_eq_bind, Option.map_bind, Function.comp_def]
  rfl

theorem FromFile.learn {learner learner' : Learner} (h : FromFile filename learner)
    {x : List ℚ × ℚ} (hrun : learn fmt learner x = some learner') :
    FromFile filename learner' := by
  obtain ⟨⟨_, files⟩, hupdate, rfl⟩ := Option.map_eq_some_iff.mp hrun
  obtain ⟨features, _, hupdate⟩ := Option.bind_eq_some_iff.mp hupdate
  obtain ⟨sum, _, hupdate⟩ := Option.bind_eq_some_iff.mp hupdate
  obtain ⟨weights, hweights, hupdate⟩ := Option.bind_eq_some_iff.mp hupdate
  obtain ⟨rfl, _⟩ := Prod.mk.inj (Option.some.inj hupdate)
  constructor
  · show { learner with weights := weights } = _
    conv_lhs => rw [h.constructed]
  · exact (forEach_length hweights).trans h.length

theorem Learner.rounded_id : Learner.rounded id = id := by
  funext learner
  simp [Learner.rounded]

theorem correctedWeights_reads {learner : Learner} {correction sum : ℚ} {features weights : List ℚ}
    (h : correctedWeights learner correction features sum = some weights) {i : Nat}
    (hi : i < learner.weights.length) : i < features.length ∧ sum ≠ 0 := by
  obtain ⟨y, hy, _⟩ :=
    (forEach_eq_some_iff.mp h).2 i _ (List.getElem?_eq_getElem hi)
  obtain ⟨feature, hfeature, hy⟩ := Option.bind_eq_some_iff.mp hy
  obtain ⟨share, hshare, _⟩ := Option.bind_eq_some_iff.mp hy
  refine ⟨(List.getElem?_eq_some_iff.mp hfeature).1, fun hzero => ?_⟩
  rw [divide, if_pos hzero] at hshare
  cases hshare

/-- A step has a result exactly if there is a weight for every feature and the weighted sum, by
which it divides, is not zero. -/
theorem learn_isSome_iff {learner : Learner} (h : FromFile filename learner)
    (x : List ℚ × ℚ) : (learn fmt learner x).isSome ↔
      x.1.length = learner.weights.length ∧ moment 1 learner.weights x.1 ≠ 0 := by
  constructor
  · intro hsome
    obtain ⟨learner', hrun⟩ := Option.isSome_iff_exists.mp hsome
    obtain ⟨_, hupdate, _⟩ := Option.map_eq_some_iff.mp hrun
    obtain ⟨features, hfeatures, hupdate⟩ := Option.bind_eq_some_iff.mp hupdate
    obtain ⟨sum, hsum, hupdate⟩ := Option.bind_eq_some_iff.mp hupdate
    obtain ⟨weights, hweights, _⟩ := Option.bind_eq_some_iff.mp hupdate
    have hsame : features.length = x.1.length := forEach_length hfeatures
    have hlength : x.1.length = learner.weights.length := by
      by_contra hne
      rcases lt_or_gt_of_ne hne with hlt | hlt
      · exact absurd (correctedWeights_reads hweights hlt).1 (hsame ▸ lt_irrefl _)
      · obtain ⟨y, hy, _⟩ := (forEach_eq_some_iff.mp hfeatures).2 _ _ (List.getElem?_eq_getElem hlt)
        obtain ⟨w, hw, _⟩ := Option.bind_eq_some_iff.mp hy
        exact absurd (List.getElem?_eq_some_iff.mp hw).1 (lt_irrefl _)
    refine ⟨hlength, ?_⟩
    have hnonempty : 0 < learner.weights.length := by
      rw [h.length]
      decide
    rw [weightedSum_eq hlength, Option.some.injEq] at hsum
    rw [hsum]
    exact (correctedWeights_reads hweights hnonempty).2
  · rintro ⟨hlength, hsum⟩
    obtain ⟨learner', files', hupdate, _⟩ := update_eq hlength hsum fmt x.2 fun _ => []
    show ((update fmt learner x.1 x.2 fun _ => []).map Prod.fst).isSome
    rw [hupdate]
    rfl

/-- If every run of the program has the learner load its file, runs come to the weights they would
come to in memory, rounded where a run ends, as long as no step there divides by zero. -/
theorem loads_round (hfmt : fmt.Rounds round) {xss : List (List (List ℚ × ℚ))} {files : Files ω}
    {learner : Learner}
    (hlived : lived (learn fmt) (Learner.rounded round) xss (Learner.fromFile fmt filename files) =
      some learner) :
    (sessions (Learner.fromFile fmt filename) (train fmt) xss files).map Prod.fst = some learner ∧
      (round = id →
        xss.flatten.foldlM (learn fmt) (Learner.fromFile fmt filename files) = some learner) := by
  constructor
  · rw [← hlived]
    exact sessions_eq train_eq (fun _ _ _ h hrun => h.learn hrun)
      (fun _ files h => h.reload hfmt files) fromFile_fromFile xss files
  · rintro rfl
    rw [← hlived, Learner.rounded_id, lived_id]

theorem loads_round_floor :
    (sessions (Learner.fromFile floorFormat "weights.txt") (train floorFormat)
        [[([0, 0, 0, 0, 0, 1, 0], 1)], [([0, 1, 0, 0, 0, 1, 0], 2)]] fun _ => []).map Prod.fst =
      some ⟨[1, 9, 3, 0, -1, 0, 0], 1 / 20, "weights.txt"⟩ :=
  (loads_round floorFormat_rounds (by decide +kernel)).1

end Sum

end WSum

end Rollerball
