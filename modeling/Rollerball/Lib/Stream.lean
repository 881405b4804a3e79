import Mathlib.Data.List.Basic
import Mathlib.Data.List.Forall2

/-!
# Numbers in text files

Numbers are written to a text as words between blanks and line ends, and extracted from it in
order. A failed extraction spoils the stream, and from then on nothing is extracted. Nested vectors
are filled entry by entry in the order in which they were written.
-/

namespace Stream

variable {α β ω σ : Type}

/-- How a number is printed as a word, and how a word is read as a number. -/
structure Format (α ω : Type) where
  print : α → ω
  scan : ω → Option α

def Format.Lossless (fmt : Format α ω) : Prop := ∀ x, fmt.scan (fmt.print x) = some x

def Format.exact (α : Type) : Format α α := ⟨id, some⟩

theorem Format.exact_lossless : (Format.exact α).Lossless := fun _ => rfl

inductive Glyph (ω : Type)
  | word (w : ω)
  | blank
  | endl

abbrev Text (ω : Type) := List (Glyph ω)

/-- The content of each file; a missing file reads like an empty one. -/
abbrev Files (ω : Type) := String → Text ω

/-- `out << x << " "` -/
def put (fmt : Format α ω) (x : α) : Text ω := [.word (fmt.print x), .blank]

/-- The numbers of a vector, and the end of the line. -/
def putLine (fmt : Format α ω) (xs : List α) : Text ω := xs.flatMap (put fmt) ++ [.endl]

/-- An input stream: what it has left, and whether no extraction has failed. -/
structure Reader (ω : Type) where
  rest : Text ω
  good : Bool

def skip : Text ω → Text ω
  | .blank :: t => skip t
  | .endl :: t => skip t
  | t => t

/-- `in >> x`, where `x` holds `old`. -/
def extract [Zero α] (fmt : Format α ω) (old : α) (r : Reader ω) : α × Reader ω :=
  if r.good then
    match skip r.rest with
    | .word w :: t =>
      match fmt.scan w with
      | some x => (x, ⟨t, true⟩)
      | none => (0, ⟨t, false⟩)
    | t => (old, ⟨t, false⟩)
  else (old, r)

/-- Replace the entries of a vector in order, each from its old value and a state. -/
def fill (step : α → σ → α × σ) : List α → σ → List α × σ
  | [], s => ([], s)
  | x :: xs, s =>
    let (y, s) := step x s
    let (ys, s) := fill step xs s
    (y :: ys, s)

@[simp] theorem fill_nil (step : α → σ → α × σ) (s : σ) : fill step [] s = ([], s) := rfl

theorem fill_cons (step : α → σ → α × σ) (x : α) (xs : List α) (s : σ) :
    fill step (x :: xs) s =
      ((step x s).1 :: (fill step xs (step x s).2).1, (fill step xs (step x s).2).2) := rfl

theorem fill_map {step : α → σ → α × σ} (g : α → β) (h : ∀ x s, g (step x s).1 = g x)
    (xs : List α) (s : σ) : (fill step xs s).1.map g = xs.map g := by
  induction xs generalizing s with
  | nil => rfl
  | cons x xs ih => rw [fill_cons, List.map_cons, List.map_cons, h, ih]

theorem fill_length (step : α → σ → α × σ) (xs : List α) (s : σ) :
    (fill step xs s).1.length = xs.length := by
  simpa using congrArg List.length (fill_map (fun _ => ()) (fun _ _ => rfl) xs s)

/-- The stream is good and its next extractions are those of the text. -/
def Reader.At (r : Reader ω) (t : Text ω) : Prop := r.good = true ∧ skip r.rest = skip t

theorem Reader.at_start (t : Text ω) : Reader.At ⟨t, true⟩ t := ⟨rfl, rfl⟩

/-- The step makes `y` of what was written of `x`, and stops behind it. -/
def ReadsAs (write : α → Text ω) (step : α → Reader ω → α × Reader ω) (x y old : α) : Prop :=
  ∀ (t : Text ω) (r : Reader ω), r.At (write x ++ t) → ∃ r', step old r = (y, r') ∧ r'.At t

/-- The step gives back what was written and stops behind it. -/
def Reads (write : α → Text ω) (step : α → Reader ω → α × Reader ω) (x old : α) : Prop :=
  ∀ (t : Text ω) (r : Reader ω), r.At (write x ++ t) → ∃ r', step old r = (x, r') ∧ r'.At t

theorem extract_readsAs [Zero α] {fmt : Format α ω} {x y : α}
    (hword : fmt.scan (fmt.print x) = some y) (old : α) :
    ReadsAs (put fmt) (extract fmt) x y old := by
  rintro t r ⟨hgood, hskip⟩
  have hrest : skip r.rest = .word (fmt.print x) :: .blank :: t := hskip
  refine ⟨⟨.blank :: t, true⟩, ?_, rfl, rfl⟩
  rw [extract, if_pos hgood, hrest]
  simp only [hword]

/-- White space at the end is skipped by the next extraction. -/
theorem ReadsAs.concat_endl {write : α → Text ω} {step : α → Reader ω → α × Reader ω}
    {x y old : α} (h : ReadsAs write step x y old) :
    ReadsAs (fun x => write x ++ [.endl]) step x y old := by
  intro t r hr
  obtain ⟨r', hstep, hgood, hskip⟩ := h (.endl :: t) r (by simpa using hr)
  exact ⟨r', hstep, hgood, hskip⟩

theorem Reads.concat_endl {write : α → Text ω} {step : α → Reader ω → α × Reader ω} {x old : α}
    (h : Reads write step x old) : Reads (fun x => write x ++ [.endl]) step x old :=
  ReadsAs.concat_endl h

theorem fill_readsAs {write : α → Text ω} {step : α → Reader ω → α × Reader ω} {value : α → α}
    {xs olds : List α} (h : List.Forall₂ (fun x => ReadsAs write step x (value x)) xs olds) :
    ReadsAs (fun xs => xs.flatMap write) (fill step) xs (xs.map value) olds := by
  induction h with
  | nil => exact fun t r hr => ⟨r, rfl, hr⟩
  | cons hx _ ih =>
    intro t r hr
    simp only [List.flatMap_cons, List.append_assoc] at hr
    obtain ⟨r₁, hstep, hr₁⟩ := hx _ r hr
    obtain ⟨r₂, hfill, hr₂⟩ := ih t r₁ hr₁
    exact ⟨r₂, by rw [fill_cons, hstep, hfill, List.map_cons], hr₂⟩

theorem fill_readsAs_of_map {write : α → Text ω} {step : α → Reader ω → α × Reader ω}
    {value : α → α} (g : α → β)
    (h : ∀ x old, g x = g old → ReadsAs write step x (value x) old) {xs olds : List α}
    (hshape : xs.map g = olds.map g) :
    ReadsAs (fun xs => xs.flatMap write) (fill step) xs (xs.map value) olds := by
  have hentries : List.Forall₂ (fun x old => g x = g old) xs olds := by
    rw [← List.forall₂_map_right_iff, ← List.forall₂_map_left_iff, hshape]
    exact List.forall₂_refl _
  exact fill_readsAs (hentries.imp fun x old => h x old)

theorem fill_reads_of_map {write : α → Text ω} {step : α → Reader ω → α × Reader ω} (g : α → β)
    (h : ∀ x old, g x = g old → Reads write step x old) {xs olds : List α}
    (hshape : xs.map g = olds.map g) : Reads (fun xs => xs.flatMap write) (fill step) xs olds := by
  have hread : ReadsAs _ _ xs (xs.map id) olds := fill_readsAs_of_map g h hshape
  rwa [List.map_id] at hread

/-- A printed number is scanned as the number it is rounded to. -/
def Format.Rounds (fmt : Format α ω) (round : α → α) : Prop :=
  ∀ x, fmt.scan (fmt.print x) = some (round x)

theorem fill_extract_readsAs [Zero α] {fmt : Format α ω} {round : α → α}
    (hfmt : fmt.Rounds round) {xs olds : List α} (hlength : xs.length = olds.length) :
    ReadsAs (putLine fmt) (fill (extract fmt)) xs (xs.map round) olds := by
  have hshape : xs.map (fun _ => ()) = olds.map fun _ => () := by
    rw [List.map_const', List.map_const', hlength]
  exact (fill_readsAs_of_map _ (fun x old _ => extract_readsAs (hfmt x) old) hshape).concat_endl

theorem fill_extract_reads [Zero α] {fmt : Format α ω} (hfmt : fmt.Lossless) {xs olds : List α}
    (hlength : xs.length = olds.length) :
    Reads (putLine fmt) (fill (extract fmt)) xs olds := by
  have hrounds : fmt.Rounds id := hfmt
  have hread := fill_extract_readsAs hrounds hlength
  rwa [List.map_id] at hread

end Stream
